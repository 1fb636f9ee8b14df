import Fabula.Proofs.Scan.LineEnds
import Fabula.Proofs.Markup.Scanning

namespace Fabula

namespace Pattern

variable {α : Type} {p q m : Place} {k : Place → Option α} {pattern : Pattern}
  {source text : List Char}

theorem eq_of_takes_text {cs : List Char} (h : (Pattern.text cs).Takes text) : text = cs := by
  fun_induction Pattern.text cs generalizing text with
  | case1 => exact h
  | case2 c =>
    obtain ⟨d, hd, rfl⟩ := h
    rw [beq_iff_eq.mp hd]
  | case3 c cs hne ih =>
    obtain ⟨s, t, ⟨d, hd, rfl⟩, ht, rfl⟩ := h
    rw [beq_iff_eq.mp hd, ih ht]
    rfl

/-- A pattern that takes no text with a line feed in front does not begin to match before a line
feed. -/
theorem match?_beforeFeed (h : ∀ text, pattern.Takes text → text ≠ [] ∧ text.head? ≠ some '\n')
    (rest : List Char) : pattern.match? (.beforeFeed rest) = none := by
  cases hmatch : pattern.match? (.beforeFeed rest) with
  | none => rfl
  | some q =>
    obtain ⟨text, r, htakes, hpasses, -⟩ := advances_run pattern _ _ _ hmatch
    obtain ⟨hne, hhead⟩ := h text htakes
    obtain ⟨c, text, rfl⟩ := List.exists_cons_of_ne_nil hne
    obtain ⟨rfl, -⟩ := List.cons.inj hpasses.after
    exact absurd rfl hhead

theorem Insensitive.steady (h : Insensitive pattern) (hreturn : '\r' ∉ source)
    (hfeed : ∀ rest, pattern.match? (.beforeFeed rest) = none) : pattern.Steady source where
  matched _ hp := h.match? (hp.not_mem hreturn)
  between _ _ _ _ _ := hfeed _

end Pattern

namespace Feature

open Pattern

variable {α : Type} {p q m : Place} {k : Place → Option α} {source text : List Char}

theorem insensitive_indent : Insensitive indent := by
  refine (insensitive_one rfl rfl).star ?_
  rintro text ⟨c, -, rfl⟩
  simp

theorem blank_of_takes_indent (h : indent.Takes text) : ∀ c ∈ text, c = ' ' ∨ c = '\t' := by
  obtain ⟨parts, hparts, rfl⟩ := h
  intro c hc
  obtain ⟨part, hpart, hc⟩ := List.mem_flatten.mp hc
  obtain ⟨d, hd, rfl⟩ := hparts part hpart
  rw [List.mem_singleton.mp hc]
  simpa using hd

theorem run_newline (p : Place) (k : Place → Option α) : newline.run p k =
    ((char '\r').run p fun q => (char '\n').run q k).or ((char '\n').run p k) := by
  rw [newline, opt, if_pos rfl, run, run, Option.orElse_eq_or]
  rfl

theorem run_newline_end (h : p.after = []) : newline.run p k = none := by
  rw [run_newline, char, char, run_one_end h, run_one_end h]
  rfl

theorem run_newline_feed (h : p.next? = some ('\n', q)) : newline.run p k = k q := by
  rw [run_newline, char, char, run_one h, run_one h]
  rfl

theorem run_newline_return (hp : p.next? = some ('\r', m)) (hm : m.next? = some ('\n', q)) :
    newline.run p k = k q := by
  rw [run_newline, char, char, run_one hp, run_one hp, run_one hm]
  exact Option.or_none

theorem run_newline_other {c : Char} (h : p.next? = some (c, q)) (hfeed : c ≠ '\n')
    (hreturn : c ≠ '\r') : newline.run p k = none := by
  rw [run_newline, char, char, run_one h, run_one h, if_neg (by simpa using hreturn),
    if_neg (by simpa using hfeed)]
  rfl

theorem insensitive_newline : Insensitive newline := by
  intro α β f p k k' hp h
  rcases p.end_or_next with hend | ⟨c, q, hnext⟩
  · rw [run_newline_end hend, run_newline_end (by rw [Place.crlf_eq_self hend]; exact hend)]
    rfl
  · by_cases hc : c = '\n'
    · subst hc
      obtain ⟨hreturn, hfeed⟩ := Place.next?_crlf_feed hnext
      rw [run_newline_feed hnext, run_newline_return hreturn hfeed]
      exact h ['\n'] q ⟨[], ['\n'], .inr rfl, ⟨'\n', rfl, rfl⟩, rfl⟩ (.next hnext)
    · have hne : c ≠ '\r' := by
        rintro rfl
        exact hp (by rw [(Place.Passes.next hnext).after]; exact List.mem_cons_self)
      rw [run_newline_other hnext hc hne, run_newline_other (Place.next?_crlf hnext hc) hc hne]
      rfl

theorem ne_nil_of_takes_newline (h : newline.Takes text) : text ≠ [] := by
  obtain ⟨s, t, -, ⟨c, -, rfl⟩, rfl⟩ := h
  simp

theorem insensitive_textEnd : Insensitive textEnd := by
  apply insensitive_check
  intro p
  rw [Bool.eq_iff_iff, List.isEmpty_iff, List.isEmpty_iff, Place.after_crlf, Text.crlf_eq_nil]

theorem insensitive_lineStart : Insensitive lineStart := insensitive_check fun _ => rfl

theorem run_lineStart_crlf {β : Type} {f : α → β} {k' : Place → Option β}
    (h : p.before = none ∨ p.before = some '\n' → k' p.crlf = (k p).map f) :
    lineStart.run p.crlf k' = (lineStart.run p k).map f := by
  rw [lineStart, run, run]
  change (if p.before.isNone || p.before == some '\n' then _ else _) = _
  split
  · rename_i hstart
    exact h (by simpa using hstart)
  · rfl

theorem insensitive_slashes : Insensitive slashes :=
  (insensitive_text (by simp)).seq
    (insensitive_indent.seq (insensitive_newline.alt insensitive_textEnd))

theorem insensitive_blankLines : Insensitive blankLines := by
  have hline : Insensitive (seq indent newline) := insensitive_indent.seq insensitive_newline
  refine insensitive_newline.seq (hline.seq (hline.star ?_))
  rintro text ⟨s, t, -, ht, rfl⟩ hnil
  exact ne_nil_of_takes_newline ht (List.append_eq_nil_iff.mp hnil).2

theorem insensitive_lineMarker {marker : String}
    (h : ∀ c ∈ marker.toList, c ≠ '\n' ∧ c ≠ '\r') : Insensitive (lineMarker marker) :=
  insensitive_lineStart.seq (insensitive_indent.seq (insensitive_text h))

theorem match?_lineStart_beforeFeed (pattern : Pattern) (rest : List Char) :
    (seq lineStart pattern).match? (.beforeFeed rest) = none := rfl

section Steady

variable (hreturn : '\r' ∉ source)

include hreturn

theorem steady_lit {s : String} (h : ∀ c ∈ s.toList, c ≠ '\n' ∧ c ≠ '\r')
    (hne : s.toList ≠ []) : (lit s).Steady source := by
  refine (insensitive_text h).steady hreturn fun rest => match?_beforeFeed ?_ rest
  intro text htakes
  rw [eq_of_takes_text htakes]
  exact ⟨hne, fun hhead => (h _ (List.mem_of_mem_head? hhead)).1 rfl⟩

theorem steady_slashes : slashes.Steady source := by
  refine insensitive_slashes.steady hreturn fun rest => match?_beforeFeed ?_ rest
  rintro text ⟨s, t, hs, -, rfl⟩
  rw [eq_of_takes_text hs]
  simp

/-- Before the line feed of a line end blank lines are found just where they are found before
the whole. -/
theorem steady_blankLines : blankLines.Steady source where
  matched _ hp := insensitive_blankLines.match? (hp.not_mem hreturn)
  between p q hp hnext hnone := by
    obtain ⟨hr, hf⟩ := Place.next?_crlf_feed hnext
    have hcrlf : blankLines.match? p.crlf = none := by
      rw [insensitive_blankLines.match? (hp.not_mem hreturn), hnone]
      rfl
    rw [match?, blankLines, run, run_newline_return hr hf] at hcrlf
    rw [match?, blankLines, run, run_newline_feed hf]
    exact hcrlf

theorem steady_lineMarker {marker : String} (h : ∀ c ∈ marker.toList, c ≠ '\n' ∧ c ≠ '\r') :
    (lineMarker marker).Steady source :=
  (insensitive_lineMarker h).steady hreturn (match?_lineStart_beforeFeed _)

end Steady

/-- Some line that a line feed ends holds three dashes and, around them, nothing but spaces and
tabs. -/
def HasRuledLine (source : List Char) : Prop :=
  ∃ before indent trail after : List Char,
    source = before ++ (indent ++ ("---".toList ++ trail)) ++ '\n' :: after ∧
      (before = [] ∨ before.getLast? = some '\n') ∧ ∀ c ∈ indent ++ trail, c = ' ' ∨ c = '\t'

/-- A text is free of ruled lines if no line feed comes after its first dash. -/
theorem not_hasRuledLine (h : '\n' ∉ source.dropWhile (· != '-')) : ¬HasRuledLine source := by
  rintro ⟨before, i, j, after, rfl, -, -⟩
  have hdash :
      ((before ++ (i ++ ("---".toList ++ j))).dropWhile (· != '-')).isEmpty = false := by
    rw [List.isEmpty_eq_false_iff, ne_eq, List.dropWhile_eq_nil_iff]
    simp
  rw [List.dropWhile_append, hdash] at h
  simp at h

def dashesAlone : Pattern := seq indent (seq (lit "---") indent)

theorem run_dashes (p : Place) (k : Place → Option α) :
    dashes.run p k = lineStart.run p fun q => dashesAlone.run q fun r => lineEnd.run r k := rfl

/-- Where no line is ruled, whether a line ends after three dashes does not depend on carriage
returns. -/
theorem run_lineEnd_crlf (hrule : ¬HasRuledLine source) (hp : p.In source)
    (hstart : p.before = none ∨ p.before = some '\n') (htakes : dashesAlone.Takes text)
    (hpasses : p.Passes text q) :
    lineEnd.run q.crlf some = (lineEnd.run q some).map Place.crlf := by
  have hnot : q.after.head? ≠ some '\n' := by
    intro hhead
    obtain ⟨rest, hrest⟩ : ∃ rest, q.after = '\n' :: rest := List.head?_eq_some_iff.mp hhead
    obtain ⟨before, hbefore⟩ := hp
    obtain ⟨i, t, hi, ⟨d, j, hd, hj, rfl⟩, rfl⟩ := htakes
    rw [eq_of_takes_text hd] at hpasses
    refine hrule ⟨before, i, j, rest, ?_, ?_, ?_⟩
    · rw [← hrest, ← (hbefore.trans hpasses).after]
      rfl
    · have hlast := hbefore.before
      rw [Place.start, Option.or_none] at hlast
      rcases hstart with hstart | hstart
      · exact .inl (List.getLast?_eq_none_iff.mp (hlast.symm.trans hstart))
      · exact .inr (hlast.symm.trans hstart)
    · intro c hc
      rcases List.mem_append.mp hc with hc | hc
      · exact blank_of_takes_indent hi c hc
      · exact blank_of_takes_indent hj c hc
  have hends : (q.crlf.after.isEmpty || q.crlf.after.head? == some '\n') =
      (q.after.isEmpty || q.after.head? == some '\n') := by
    rw [Bool.eq_iff_iff]
    simp [hnot, Text.head?_crlf_ne]
  rw [lineEnd, run, run, hends]
  split <;> rfl

theorem steady_dashes (hreturn : '\r' ∉ source) (hrule : ¬HasRuledLine source) :
    dashes.Steady source where
  matched p hp := by
    have halone : Insensitive dashesAlone :=
      insensitive_indent.seq ((insensitive_text (by simp)).seq insensitive_indent)
    rw [match?, match?, run_dashes, run_dashes]
    apply run_lineStart_crlf
    intro hstart
    apply halone _ _ Place.crlf p _ _ (hp.not_mem hreturn)
    intro text q htakes hpasses
    exact run_lineEnd_crlf hrule hp hstart htakes hpasses
  between _ _ _ _ _ := match?_lineStart_beforeFeed _ _

/-- The markers are steady in a text without carriage returns, those of paragraphs if no line is
ruled. -/
theorem steady_table {collect : Bool} (maxSteps : Nat) (hreturn : '\r' ∉ source)
    (hrule : collect = true → ¬HasRuledLine source) :
    Table.Steady (table collect maxSteps).rules source := by
  have hinline : Table.Steady inlineRules source := by
    simp only [Table.Steady, inlineRules, List.forall_mem_cons, Rule.tagged]
    refine ⟨?_, ?_, ?_, ?_, ?_, ?_, ?_, ?_, ?_, ?_, steady_slashes hreturn, by simp⟩ <;>
      exact steady_lit hreturn (by simp) (by simp)
  cases collect with
  | false => exact hinline
  | true =>
    have hparagraph : Table.Steady paragraphRules source := by
      simp only [Table.Steady, paragraphRules, List.forall_mem_cons, Rule.tagged]
      exact ⟨steady_blankLines hreturn, steady_dashes hreturn (hrule rfl),
        steady_lineMarker hreturn (by simp), steady_lineMarker hreturn (by simp),
        steady_lineMarker hreturn (by simp), by simp⟩
    exact List.forall_mem_append.mpr ⟨hinline, hparagraph⟩

theorem not_rawOpen_of_scan {collect lenient : Bool} {maxSteps : Nat} {source : String}
    {tokens : List (Token Feature)}
    (h : (table collect maxSteps).scan lenient source = .ok tokens)
    (hraw : ¬"\x7b!".toList <:+: source.toList) : ∀ t ∈ tokens, t.tag ≠ some .rawOpen := by
  intro t ht htag
  have htext : t.text = "\x7b!" :=
    text_of_lit h (by simp [inlineRules, paragraphRules, Rule.tagged]) t ht htag
  exact hraw (htext ▸ Table.infix_of_scan h ht)

theorem role_ne_of_ne (feature : Feature) (h : feature ≠ rawOpen) :
    feature.role ≠ .opener .rawScript := by
  cases feature <;> simp_all [role]

theorem returned_of_role (feature : Feature) (kind : SpanKind) (first : String)
    (h : feature.role = .closer kind (some first)) : Text.returned first = first := by
  cases feature <;> cases h <;> rfl

end Feature

namespace SpanKind

variable {kind : SpanKind}

theorem ne_rawScript_of_isStyle (h : kind.isStyle = true) : kind ≠ rawScript := by
  rintro rfl
  cases h

theorem ne_rawScript_of_isParagraphLike (h : kind.isParagraphLike = true) :
    kind ≠ rawScript := by
  rintro rfl
  cases h

end SpanKind

namespace Event

/-- The event with carriage returns in its text. -/
def returned : Event → Event
  | text s => text (Text.returned s)
  | e => e

def Scriptless (e : Event) : Prop := e ≠ start .rawScript ∧ e ≠ single .rawScript

theorem coalesce_returned (events : List Event) :
    coalesce (events.map returned) = (coalesce events).map returned := by
  fun_induction coalesce events with
  | case1 => rfl
  | case2 a rest b rest' hrest ih => simp [returned, coalesce, ih, hrest]
  | case3 a rest hne ih =>
    simp only [List.map_cons, returned, coalesce, ih]
    cases hrest : coalesce rest with
    | nil => rfl
    | cons e es =>
      cases e with
      | text b => exact absurd hrest (hne b es)
      | _ => rfl
  | case4 e rest hne ih =>
    cases e with
    | text a => exact absurd rfl (hne a)
    | _ => simp [returned, coalesce, ih]

theorem scriptless_coalesce {events : List Event} (h : ∀ e ∈ events, e.Scriptless) :
    ∀ e ∈ coalesce events, e.Scriptless := by
  intro e he
  rcases mem_coalesce he with ⟨s, rfl⟩ | he
  · simp [Scriptless]
  · exact h e he

end Event

namespace Opening

/-- The opening wherever it stands. -/
def unplaced (o : Opening) : Opening := { o with offset := 0 }

end Opening

namespace Resolver

variable {r r' : Resolver} {kind : SpanKind} {t t' : Token Feature}

/-- The resolver's state without the offsets of open spans. -/
def unplaced (r : Resolver) : Resolver := { r with opened := r.opened.map Opening.unplaced }

structure Alike (r r' : Resolver) : Prop where
  unplaced : r'.unplaced = r.unplaced
  styles : .rawScript ∉ r.styles

structure Agree (x x' : Resolver × List Event) : Prop where
  alike : x.1.Alike x'.1
  returned : x'.2 = x.2.map Event.returned
  scriptless : ∀ e ∈ x.2, e.Scriptless

theorem inside_unplaced (r : Resolver) (kind : SpanKind) :
    r.unplaced.inside kind = r.inside kind := by
  simp [inside, unplaced, Opening.unplaced, Function.comp_def]

theorem inLogic_unplaced (r : Resolver) : r.unplaced.inLogic = r.inLogic := by
  unfold inLogic unplaced
  cases r.opened <;> rfl

theorem text_unplaced (r : Resolver) (s : String) :
    (r.text s).1.unplaced = (r.unplaced.text s).1 := by
  unfold text unplaced
  cases r.opened with
  | nil => rfl
  | cons top rest =>
    simp only [List.map_cons, Opening.unplaced]
    split <;> rfl

theorem leave_unplaced (r : Resolver) (kind : SpanKind) :
    (r.leave kind).1.unplaced = (r.unplaced.leave kind).1 := by
  simp [leave, unplaced, List.eraseP_map, Opening.unplaced, Function.comp_def]

theorem toggle_unplaced (r : Resolver) (kind : SpanKind) :
    (r.toggle kind).1.unplaced = (r.unplaced.toggle kind).1 := by
  unfold toggle unplaced
  split <;> rfl

namespace Alike

theorem inside_eq (h : r.Alike r') (kind : SpanKind) : r'.inside kind = r.inside kind := by
  rw [← inside_unplaced, h.unplaced, inside_unplaced]

theorem inLogic_eq (h : r.Alike r') : r'.inLogic = r.inLogic := by
  rw [← inLogic_unplaced, h.unplaced, inLogic_unplaced]

theorem styles_eq (h : r.Alike r') : r'.styles = r.styles := by
  change r'.unplaced.styles = r.unplaced.styles
  rw [h.unplaced]

theorem paragraph_eq (h : r.Alike r') : r'.paragraph = r.paragraph := by
  change r'.unplaced.paragraph = r.unplaced.paragraph
  rw [h.unplaced]

theorem opened_eq (h : r.Alike r') :
    r'.opened.map Opening.unplaced = r.opened.map Opening.unplaced :=
  congrArg Resolver.opened h.unplaced

theorem brackets_eq (h : r.Alike r') : r'.brackets = r.brackets := by
  have hkinds := congrArg (List.map Opening.kind) h.opened_eq
  rwa [List.map_map, List.map_map] at hkinds

theorem getLast?_opened (h : r.Alike r') :
    r'.opened.getLast?.map Opening.unplaced = r.opened.getLast?.map Opening.unplaced := by
  rw [← List.getLast?_map, h.opened_eq, List.getLast?_map]

theorem text (h : r.Alike r') (s : String) : Agree (r.text s) (r'.text (Text.returned s)) := by
  have hcolon : (Text.returned s).toList.contains ':' = s.toList.contains ':' := by
    rw [Bool.eq_iff_iff, List.contains_iff_mem, List.contains_iff_mem, Text.returned,
      String.toList_ofList, Text.mem_crlf (by decide)]
  refine ⟨⟨?_, h.styles⟩, rfl, by simp [Resolver.text, Event.Scriptless]⟩
  rw [text_unplaced, text_unplaced, h.unplaced]
  unfold Resolver.text
  rw [hcolon]

theorem enter (h : r.Alike r') (hk : kind ≠ .rawScript) (offset offset' : Nat) :
    Agree (r.enter kind offset) (r'.enter kind offset') := by
  refine ⟨⟨?_, h.styles⟩, rfl, by simp [Resolver.enter, Event.Scriptless, hk]⟩
  simp [Resolver.enter, Resolver.unplaced, Opening.unplaced, h.styles_eq, h.paragraph_eq,
    h.opened_eq]

theorem leave (h : r.Alike r') (kind : SpanKind) : Agree (r.leave kind) (r'.leave kind) := by
  refine ⟨⟨?_, h.styles⟩, rfl, by simp [Resolver.leave, Event.Scriptless]⟩
  rw [leave_unplaced, leave_unplaced, h.unplaced]

theorem toggle (h : r.Alike r') (hk : kind ≠ .rawScript) :
    Agree (r.toggle kind) (r'.toggle kind) := by
  have hstate : (r'.toggle kind).1.unplaced = (r.toggle kind).1.unplaced := by
    rw [toggle_unplaced, toggle_unplaced, h.unplaced]
  unfold Resolver.toggle at hstate ⊢
  rw [h.styles_eq] at hstate ⊢
  split at hstate
  · rename_i hopen
    rw [if_pos hopen, if_pos hopen]
    refine ⟨⟨hstate, ?_⟩, rfl, by simp [Event.Scriptless]⟩
    exact fun hmem => h.styles (List.mem_of_mem_erase hmem)
  · rename_i hshut
    rw [if_neg hshut, if_neg hshut]
    refine ⟨⟨hstate, ?_⟩, rfl, by simp [Event.Scriptless, hk]⟩
    simp [hk.symm, h.styles]

theorem shut (h : r.Alike r') (kind : SpanKind) {first : Option String}
    (hfirst : ∀ s ∈ first, Text.returned s = s) (ht : t.Returned t') :
    Agree (r.shut kind first t) (r'.shut kind first t') := by
  cases first with
  | none =>
    rw [Resolver.shut, Resolver.shut, Option.elim_none, Option.elim_none, h.inside_eq, ht.2]
    split
    · exact h.leave kind
    · exact h.text t.text
  | some first =>
    rw [Resolver.shut, Resolver.shut, Option.elim_some, Option.elim_some,
      Resolver.leaveOrHidden, Resolver.leaveOrHidden, h.inside_eq, h.inside_eq, ht.2]
    split
    · exact h.leave kind
    · split
      · have hbefore := h.text first
        rw [hfirst first rfl] at hbefore
        have hafter := hbefore.alike.leave .hidden
        refine ⟨hafter.alike, ?_,
          List.forall_mem_append.mpr ⟨hbefore.scriptless, hafter.scriptless⟩⟩
        rw [List.map_append, ← hbefore.returned, ← hafter.returned]
      · exact h.text t.text

theorem newParagraph (h : r.Alike r') (hk : kind ≠ .rawScript) {between : Option SpanKind}
    (hb : between ≠ some .rawScript) (offset offset' : Nat) :
    Parallel Agree (r.newParagraph kind between offset)
      (r'.newParagraph kind between offset') := by
  unfold Resolver.newParagraph
  cases hr : r.opened.getLast? with
  | some span =>
    obtain ⟨span', hr', -⟩ :=
      Option.map_eq_some_iff.mp (h.getLast?_opened.trans (by rw [hr]; rfl))
    rw [hr']
    exact .error _ _
  | none =>
    rw [Option.map_eq_none_iff.mp (h.getLast?_opened.trans (by rw [hr]; rfl)), h.styles_eq,
      h.paragraph_eq]
    refine .ok ⟨⟨?_, h.styles⟩, ?_, ?_⟩
    · simp [Resolver.unplaced, h.opened_eq]
    · simp [Event.returned, Function.comp_def]
    · have hstyles := h.styles
      intro e he
      constructor
      · rintro rfl
        simp [hk.symm, hstyles] at he
      · rintro rfl
        simp [hb] at he

theorem continueParagraph (h : r.Alike r') (hk : kind ≠ .rawScript) (offset offset' : Nat) :
    Parallel Agree (r.continueParagraph kind offset) (r'.continueParagraph kind offset') := by
  unfold Resolver.continueParagraph
  rw [h.paragraph_eq]
  split
  · exact .ok ⟨h, rfl, by simp⟩
  · exact h.newParagraph hk (by simp) offset offset'

/-- A marker other than the opener of raw script does the same to states that are alike. -/
theorem mark (h : r.Alike r') (hraw : r.inside .rawScript = false) {feature : Feature}
    (hf : feature ≠ .rawOpen) (ht : t.Returned t') :
    Parallel Agree (r.mark feature t) (r'.mark feature t') := by
  have hproper := feature.proper_role
  have hopener := feature.role_ne_of_ne hf
  have hfirst := feature.returned_of_role
  have htext : Agree (r.text t.text) (r'.text t'.text) := by
    rw [ht.2]
    exact h.text t.text
  rw [mark_eq_act hraw, mark_eq_act (h.inside_eq _ ▸ hraw)]
  generalize feature.role = role at hproper hopener hfirst ⊢
  cases role with
  | style kind =>
    rw [act, act, h.inLogic_eq]
    refine .ok ?_
    split
    · exact htext
    · exact h.toggle (SpanKind.ne_rawScript_of_isStyle hproper)
  | opener kind =>
    have hkind : kind ≠ .rawScript := fun hk => hopener (congrArg _ hk)
    have hsame : r'.refusal? t'.start kind = none ↔ r.refusal? t.start kind = none := by
      rw [refusal?_eq_none_iff, refusal?_eq_none_iff, h.brackets_eq]
    rw [act, act]
    cases hr : r.refusal? t.start kind with
    | none =>
      rw [hsame.mpr hr]
      exact .ok (h.enter hkind _ _)
    | some e =>
      obtain ⟨e', hr'⟩ := Option.ne_none_iff_exists'.mp (mt hsame.mp (by simp [hr]))
      rw [hr']
      exact .error _ _
  | closer kind first => exact .ok (h.shut kind (fun s hs => hfirst kind s (by rw [hs])) ht)
  | leaf kind =>
    cases hproper
    exact .ok ⟨h, rfl, by simp [Event.Scriptless]⟩
  | paragraph kind between =>
    refine h.newParagraph (SpanKind.ne_rawScript_of_isParagraphLike hproper.1) ?_ _ _
    rintro rfl
    cases hproper.2 _ rfl
  | block kind =>
    exact h.continueParagraph (SpanKind.ne_rawScript_of_isParagraphLike hproper) _ _

theorem step (h : r.Alike r') (ht : t.Returned t') (hraw : t.tag ≠ some .rawOpen) :
    Parallel Agree (r.step t) (r'.step t') := by
  unfold Resolver.step
  rw [ht.1]
  cases htag : t.tag with
  | none =>
    rw [ht.2]
    exact .ok (h.text t.text)
  | some feature =>
    dsimp only
    rw [h.inside_eq]
    split
    · refine .ok ?_
      split
      · exact h.leave .rawScript
      · rw [ht.2]
        exact h.text t.text
    · rename_i hscript
      exact h.mark (Bool.not_eq_true _ ▸ hscript) (fun hf => hraw (by rw [htag, hf])) ht

theorem steps {tokens tokens' : List (Token Feature)} {out out' : Array Event} (h : r.Alike r')
    (ht : List.Forall₂ Token.Returned tokens tokens')
    (hraw : ∀ t ∈ tokens, t.tag ≠ some .rawOpen)
    (hout : out'.toList = out.toList.map Event.returned)
    (hscript : ∀ e ∈ out.toList, e.Scriptless) :
    Parallel (fun x x' => Agree (x.1, x.2.toList) (x'.1, x'.2.toList)) (r.steps out tokens)
      (r'.steps out' tokens') := by
  induction ht generalizing r r' out out' with
  | nil => exact .ok ⟨h, hout, hscript⟩
  | @cons t t' ts ts' hreturned _ ih =>
    rw [Resolver.steps, Resolver.steps]
    have hstep := h.step hreturned (hraw t List.mem_cons_self)
    generalize r.step t = x, r'.step t' = x' at hstep
    cases hstep with
    | error => exact .error _ _
    | ok agree =>
      apply ih agree.alike fun t ht => hraw t (List.mem_cons_of_mem _ ht)
      · simp [hout, agree.returned]
      · rw [Array.toList_appendList]
        exact List.forall_mem_append.mpr ⟨hscript, agree.scriptless⟩

theorem finish (h : r.Alike r') :
    Parallel (fun es es' => es' = es.map Event.returned ∧ ∀ e ∈ es, e.Scriptless) r.finish
      r'.finish := by
  unfold Resolver.finish
  cases hr : r.opened.getLast? with
  | some span =>
    obtain ⟨span', hr', -⟩ :=
      Option.map_eq_some_iff.mp (h.getLast?_opened.trans (by rw [hr]; rfl))
    rw [hr']
    exact .error _ _
  | none =>
    rw [Option.map_eq_none_iff.mp (h.getLast?_opened.trans (by rw [hr]; rfl)), h.styles_eq,
      h.paragraph_eq]
    exact .ok ⟨by simp [Event.returned], by simp [Event.Scriptless, or_imp, forall_and]⟩

end Alike

theorem alike_initial : initial.Alike initial := ⟨rfl, by decide⟩

end Resolver

/-- Without openers of raw script both lists of tokens give the same events, carriage returns
apart, or none. -/
theorem Event.ofTokens_returned {tokens tokens' : List (Token Feature)}
    (ht : List.Forall₂ Token.Returned tokens tokens')
    (hraw : ∀ t ∈ tokens, t.tag ≠ some .rawOpen) :
    Parallel (fun es es' => es' = es.map returned ∧ ∀ e ∈ es, e.Scriptless) (ofTokens tokens)
      (ofTokens tokens') := by
  refine (Resolver.alike_initial.steps ht hraw rfl
    (by simp [Scriptless, Resolver.initial])).bind ?_
  rintro ⟨r, out⟩ ⟨r', out'⟩ hsteps
  refine hsteps.alike.finish.bind ?_
  rintro last last' ⟨rfl, hlast⟩
  refine .ok ⟨?_, scriptless_coalesce (List.forall_mem_append.mpr ⟨hsteps.scriptless, hlast⟩)⟩
  have hout : out'.toList = out.toList.map returned := hsteps.returned
  rw [hout, ← List.map_append, coalesce_returned]

end Fabula
