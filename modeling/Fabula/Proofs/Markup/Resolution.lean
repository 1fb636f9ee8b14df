import Fabula.Proofs.Markup.Nesting

namespace Fabula

namespace SpanKind

def isStyle : SpanKind → Bool
  | emphasis | strongEmphasis => true
  | _ => false

def isBracket : SpanKind → Bool
  | hidden | conditional | insert | rawScript => true
  | _ => false

variable {kind : SpanKind}

theorem isInline_of_isStyle (h : kind.isStyle = true) : kind.isInline = true := by
  cases kind <;> simp_all [isStyle, isInline]

theorem isInline_of_isBracket (h : kind.isBracket = true) : kind.isInline = true := by
  cases kind <;> simp_all [isBracket, isInline]

theorem admits_text_of_isStyle (h : kind.isStyle = true) : kind.admits none = true := by
  cases kind <;> simp_all [isStyle, admits]

theorem admits_text_of_isBracket (h : kind.isBracket = true) : kind.admits none = true := by
  cases kind <;> simp_all [isBracket, admits]

theorem admits_text_of_isParagraphLike (h : kind.isParagraphLike = true) :
    kind.admits none = true := by
  cases kind <;> simp_all [isParagraphLike, admits]

end SpanKind

def Feature.isInline : Feature → Bool
  | paragraphBreak | horizontalRule | quotation | attribution | heading => false
  | _ => true

/-- What a marker is for: it toggles emphasis, opens or closes a bracket span, adds a leaf, or
begins a paragraph, always or only if none of its kind is open. A closer of two characters may
end a hidden span instead; what is left of it then is its first character. -/
inductive Role where
  | style (kind : SpanKind)
  | opener (kind : SpanKind)
  | closer (kind : SpanKind) (first : Option String)
  | leaf (kind : SpanKind)
  | paragraph (kind : SpanKind) (between : Option SpanKind)
  | block (kind : SpanKind)

/-- The kinds of a role are such as it is for. -/
def Role.Proper : Role → Prop
  | style kind => kind.isStyle = true
  | opener kind => kind.isBracket = true
  | closer kind _ => kind.isBracket = true
  | leaf kind => kind = .lineBreak
  | paragraph kind between =>
    kind.isParagraphLike = true ∧ ∀ leaf ∈ between, leaf = SpanKind.horizontalRule
  | block kind => kind.isParagraphLike = true

namespace Feature

def role : Feature → Role
  | emphasis => .style .emphasis
  | strongEmphasis => .style .strongEmphasis
  | insertOpen => .opener .insert
  | hiddenOpen => .opener .hidden
  | conditionalOpen => .opener .conditional
  | rawOpen => .opener .rawScript
  | insertClose => .closer .insert (some "+")
  | conditionalClose => .closer .conditional (some "?")
  | hiddenClose => .closer .hidden none
  | rawClose => .closer .rawScript none
  | lineBreak => .leaf .lineBreak
  | paragraphBreak => .paragraph .paragraph none
  | horizontalRule => .paragraph .paragraph (some .horizontalRule)
  | quotation => .block .quotation
  | attribution => .block .attribution
  | heading => .block .heading

theorem proper_role (feature : Feature) : feature.role.Proper := by
  cases feature <;> simp [role, Role.Proper, SpanKind.isStyle, SpanKind.isBracket,
    SpanKind.isParagraphLike]

end Feature

namespace Resolver

variable {r r' r'' last : Resolver} {t : Token Feature} {tokens : List (Token Feature)}
  {es events : List Event} {spans : List SpanKind} {kind : SpanKind} {breaks : Bool}

section Roles

def refusal? (r : Resolver) (offset : Nat) : SpanKind → Option MarkupError
  | .insert => if r.inside .insert then some (.nestedInsert offset) else none
  | .hidden =>
    if r.inside .insert then some (.nestedHidden offset .insert)
    else if r.inside .hidden then some (.nestedHidden offset .hidden)
    else none
  | _ => none

def shut (r : Resolver) (kind : SpanKind) (first : Option String) (t : Token Feature) :
    Resolver × List Event :=
  first.elim (if r.inside kind then r.leave kind else r.text t.text)
    fun first => r.leaveOrHidden kind first t

/-- What a marker does outside raw script, by its role. -/
def act (r : Resolver) (t : Token Feature) : Role → Step
  | .style kind => .ok (if r.inLogic then r.text t.text else r.toggle kind)
  | .opener kind => (r.refusal? t.start kind).elim (.ok (r.enter kind t.start)) .error
  | .closer kind first => .ok (r.shut kind first t)
  | .leaf kind => .ok (r, [.single kind])
  | .paragraph kind between => r.newParagraph kind between t.start
  | .block kind => r.continueParagraph kind t.start

theorem mark_eq_act (hraw : r.inside .rawScript = false) (feature : Feature)
    (t : Token Feature) : r.mark feature t = r.act t feature.role := by
  cases feature with
  | insertOpen =>
    rw [mark, Feature.role, act, refusal?]
    split <;> rfl
  | hiddenOpen =>
    rw [mark, Feature.role, act, refusal?]
    split
    · rfl
    · split <;> rfl
  | rawClose => simp [mark, Feature.role, act, shut, hraw]
  | _ => rfl

end Roles

/-- The events of tokens that are resolved one after the other. -/
inductive Run : Resolver → List (Token Feature) → List Event → Resolver → Prop where
  | nil (r : Resolver) : Run r [] [] r
  | cons {r next last : Resolver} {t : Token Feature} {tokens : List (Token Feature)}
      {es events : List Event} (step : r.step t = .ok (next, es))
        (rest : Run next tokens events last) :
      Run r (t :: tokens) (es ++ events) last

theorem run_of_steps {out all : Array Event} (h : r.steps out tokens = .ok (last, all)) :
    ∃ events, all.toList = out.toList ++ events ∧ r.Run tokens events last := by
  induction tokens generalizing r out with
  | nil =>
    cases h
    exact ⟨[], by simp, .nil _⟩
  | cons t tokens ih =>
    rw [steps] at h
    split at h
    · rename_i next es hstep
      obtain ⟨events, hall, hrun⟩ := ih h
      refine ⟨es ++ events, ?_, .cons hstep hrun⟩
      simpa using hall
    · cases h

section Brackets

/-- The kinds of the open bracket spans, innermost first. -/
def brackets (r : Resolver) : List SpanKind := r.opened.map Opening.kind

theorem inside_iff : r.inside kind = true ↔ kind ∈ r.brackets := by
  simp [inside, brackets]

theorem inside_eq_false_iff : r.inside kind = false ↔ kind ∉ r.brackets := by
  rw [← Bool.not_eq_true, inside_iff]

@[simp]
theorem brackets_text (r : Resolver) (s : String) : (r.text s).1.brackets = r.brackets := by
  simp only [brackets, text]
  split
  · rename_i hnil
    rw [hnil]
  · rename_i hcons
    rw [hcons]
    split <;> rfl

theorem brackets_leave (r : Resolver) (kind : SpanKind) :
    (r.leave kind).1.brackets = r.brackets.erase kind := by
  rw [brackets, brackets, List.erase_eq_eraseP', List.eraseP_map]
  rfl

structure Admits (r : Resolver) (kind : SpanKind) : Prop where
  bracket : kind.isBracket = true
  script : SpanKind.rawScript ∉ r.brackets
  once : kind ≠ .conditional → kind ∉ r.brackets
  hidden : kind = .hidden → SpanKind.insert ∉ r.brackets

theorem refusal?_eq_none_iff {offset : Nat} : r.refusal? offset kind = none ↔
    (kind = .insert ∨ kind = .hidden → SpanKind.insert ∉ r.brackets) ∧
      (kind = .hidden → SpanKind.hidden ∉ r.brackets) := by
  rw [← inside_iff, ← inside_iff]
  cases kind with
  | insert => simp [refusal?]
  | hidden =>
    rw [refusal?]
    split
    · rename_i hinsert
      simp [hinsert]
    · rename_i hinsert
      simp [hinsert]
  | _ => simp [refusal?]

theorem admits_of_refusal? (hscript : SpanKind.rawScript ∉ r.brackets)
    (hk : kind.isBracket = true) {offset : Nat} (h : r.refusal? offset kind = none) :
    r.Admits kind := by
  obtain ⟨hinsert, hhidden⟩ := refusal?_eq_none_iff.mp h
  cases kind with
  | insert => exact ⟨hk, hscript, fun _ => hinsert (.inl rfl), by simp⟩
  | hidden => exact ⟨hk, hscript, fun _ => hhidden rfl, fun _ => hinsert (.inr rfl)⟩
  | rawScript => exact ⟨hk, hscript, fun _ => hscript, by simp⟩
  | conditional => exact ⟨hk, hscript, by simp, by simp⟩
  | _ => cases hk

end Brackets

/-- The changes of state that tokens are made of, with their events. A paragraph ends only if it
`breaks`. -/
inductive Acts (breaks : Bool) : Resolver → List Event → Resolver → Prop where
  | stay (r : Resolver) : Acts breaks r [] r
  | text (r : Resolver) (s : String) : Acts breaks r (r.text s).2 (r.text s).1
  | enter {r : Resolver} {kind : SpanKind} (admitted : r.Admits kind) (offset : Nat) :
      Acts breaks r (r.enter kind offset).2 (r.enter kind offset).1
  | leave {r : Resolver} {kind : SpanKind} (bracket : kind.isBracket = true)
      (inside : r.inside kind = true) : Acts breaks r (r.leave kind).2 (r.leave kind).1
  | toggle {r : Resolver} {kind : SpanKind} (style : kind.isStyle = true)
      (script : SpanKind.rawScript ∉ r.brackets) :
      Acts breaks r (r.toggle kind).2 (r.toggle kind).1
  | leaf {r : Resolver} (script : SpanKind.rawScript ∉ r.brackets) :
      Acts breaks r [.single .lineBreak] r
  | paragraph {r r' : Resolver} {kind : SpanKind} {between : Option SpanKind} {offset : Nat}
      {events : List Event} (ends : breaks = true) (block : kind.isParagraphLike = true)
      (rule : ∀ leaf ∈ between, leaf = SpanKind.horizontalRule)
      (ok : r.newParagraph kind between offset = .ok (r', events)) : Acts breaks r events r'
  | trans {r r' r'' : Resolver} {first second : List Event} (before : Acts breaks r first r')
      (after : Acts breaks r' second r'') : Acts breaks r (first ++ second) r''

namespace Acts

theorem of_ok {p : Resolver × List Event} (h : Acts breaks r p.2 p.1)
    (hp : (.ok p : Step) = .ok (r', es)) : Acts breaks r es r' := by
  cases hp
  exact h

theorem shut (hk : kind.isBracket = true) (first : Option String) (t : Token Feature) :
    Acts breaks r (r.shut kind first t).2 (r.shut kind first t).1 := by
  cases first with
  | none =>
    rw [Resolver.shut, Option.elim_none]
    split
    · rename_i hin
      exact .leave hk hin
    · exact .text r t.text
  | some first =>
    rw [Resolver.shut, Option.elim_some, leaveOrHidden]
    split
    · rename_i hin
      exact .leave hk hin
    · split
      · rename_i hin
        have hafter : (r.text first).1.inside .hidden = true := by
          rwa [inside_iff, brackets_text, ← inside_iff]
        exact .trans (.text r first) (.leave rfl hafter)
      · exact .text r t.text

/-- Outside raw script each marker is one change, but for a closer that ends a hidden span. -/
theorem mark (hraw : r.inside .rawScript = false) {feature : Feature}
    (hb : feature.isInline = false → breaks = true) (h : r.mark feature t = .ok (r', es)) :
    Acts breaks r es r' := by
  have hproper := feature.proper_role
  have hends : ∀ kind, (∃ between, feature.role = .paragraph kind between) ∨
      feature.role = .block kind → breaks = true := by
    intro kind hrole
    apply hb
    revert hrole
    cases feature <;> simp [Feature.role, Feature.isInline]
  rw [mark_eq_act hraw] at h
  rw [inside_eq_false_iff] at hraw
  cases hrole : feature.role with
  | style kind =>
    rw [hrole] at h hproper
    rw [act] at h
    split at h
    · exact of_ok (.text r t.text) h
    · exact of_ok (.toggle hproper hraw) h
  | opener kind =>
    rw [hrole] at h hproper
    rw [act] at h
    cases hrefusal : r.refusal? t.start kind with
    | none =>
      rw [hrefusal] at h
      exact of_ok (.enter (admits_of_refusal? hraw hproper hrefusal) t.start) h
    | some e =>
      rw [hrefusal] at h
      cases h
  | closer kind first =>
    rw [hrole] at h hproper
    exact of_ok (shut hproper first t) h
  | leaf kind =>
    rw [hrole] at h hproper
    cases h
    rw [hproper]
    exact .leaf hraw
  | paragraph kind between =>
    rw [hrole] at h hproper
    exact .paragraph (hends kind (.inl ⟨between, hrole⟩)) hproper.1 hproper.2 h
  | block kind =>
    rw [hrole] at h hproper
    rw [act, continueParagraph] at h
    split at h
    · cases h
      exact .stay r
    · exact .paragraph (hends kind (.inr hrole)) hproper (by simp) h

theorem of_step (hb : ∀ feature ∈ t.tag, feature.isInline = false → breaks = true)
    (h : r.step t = .ok (r', es)) : Acts breaks r es r' := by
  rw [step] at h
  split at h
  · exact of_ok (.text r t.text) h
  · rename_i feature htag
    split at h
    · rename_i hin
      split at h
      · exact of_ok (.leave rfl hin) h
      · exact of_ok (.text r t.text) h
    · rename_i hin
      exact mark (Bool.not_eq_true _ ▸ hin) (hb feature htag) h

theorem of_run (hb : ∀ t ∈ tokens, ∀ feature ∈ t.tag, feature.isInline = false → breaks = true)
    (h : r.Run tokens events last) : Acts breaks r events last := by
  induction h with
  | nil r => exact .stay r
  | cons step rest ih =>
    obtain ⟨hfirst, hrest⟩ := List.forall_mem_cons.mp hb
    exact .trans (of_step hfirst step) (ih hrest)

/-- What does not break the paragraph keeps it, and ends nothing but inline spans. -/
theorem stays (h : Acts false r es r') :
    r'.paragraph = r.paragraph ∧ ∀ kind, .stop kind ∈ es → kind.isInline = true := by
  induction h with
  | stay r => exact ⟨rfl, by simp⟩
  | text r s => exact ⟨rfl, by simp [Resolver.text]⟩
  | enter admitted offset => exact ⟨rfl, by simp [Resolver.enter]⟩
  | leave bracket inside =>
    exact ⟨rfl, by simp [Resolver.leave, SpanKind.isInline_of_isBracket bracket]⟩
  | toggle style script =>
    rw [Resolver.toggle]
    split
    · exact ⟨rfl, by simp [SpanKind.isInline_of_isStyle style]⟩
    · exact ⟨rfl, by simp⟩
  | leaf script => exact ⟨rfl, by simp⟩
  | paragraph ends => cases ends
  | trans before after ihBefore ihAfter =>
    refine ⟨ihAfter.1.trans ihBefore.1, ?_⟩
    intro kind hk
    rcases List.mem_append.mp hk with hk | hk
    · exact ihBefore.2 kind hk
    · exact ihAfter.2 kind hk

end Acts

/-- The spans that are open in a paragraph, innermost first, are those that the resolver
counts. -/
structure Nests (r : Resolver) (spans : List SpanKind) : Prop where
  paragraph : r.paragraph.isParagraphLike = true
  styles : ∀ kind ∈ r.styles, kind.isStyle = true
  brackets : ∀ kind ∈ r.brackets, kind.isBracket = true
  counted : spans.Perm (r.styles ++ r.brackets)
  script : SpanKind.rawScript ∉ spans.tail

/-- Events that fit lead from the spans open in the paragraph of one state to those of
another. -/
def Reaches (r : Resolver) (spans : List SpanKind) (es : List Event) (r' : Resolver) : Prop :=
  ∃ spans', r'.Nests spans' ∧
    Event.Leads (spans ++ [r.paragraph]) es (spans' ++ [r'.paragraph])

namespace Nests

theorem ne_paragraph (h : r.Nests spans) (hk : kind.isInline = true) : kind ≠ r.paragraph := by
  rintro rfl
  have hp := h.paragraph
  revert hp hk
  cases r.paragraph <;> decide

theorem not_mem_spans (h : r.Nests spans) (hraw : SpanKind.rawScript ∉ r.brackets) :
    SpanKind.rawScript ∉ spans := by
  intro hmem
  rcases List.mem_append.mp (h.counted.mem_iff.mp hmem) with hk | hk
  · cases h.styles _ hk
  · exact hraw hk

theorem admits_text (h : r.Nests spans) :
    (SpanKind.innermost (spans ++ [r.paragraph])).admits none = true := by
  cases spans with
  | nil => exact SpanKind.admits_text_of_isParagraphLike h.paragraph
  | cons top spans =>
    rcases List.mem_append.mp (h.counted.mem_iff.mp List.mem_cons_self) with hk | hk
    · exact SpanKind.admits_text_of_isStyle (h.styles top hk)
    · exact SpanKind.admits_text_of_isBracket (h.brackets top hk)

theorem admits_inline (h : r.Nests spans) (hraw : SpanKind.rawScript ∉ spans)
    (hk : kind.isInline = true) :
    (SpanKind.innermost (spans ++ [r.paragraph])).admits (some kind) = true := by
  apply SpanKind.admits_of_text h.admits_text _ hk
  cases spans with
  | nil => exact (h.ne_paragraph rfl).symm
  | cons top spans =>
    rintro rfl
    exact hraw List.mem_cons_self

theorem text (h : r.Nests spans) (s : String) : r.Reaches spans (r.text s).2 (r.text s).1 := by
  have hbrackets := brackets_text r s
  refine ⟨spans, ⟨h.paragraph, h.styles, ?_, ?_, h.script⟩, .single h.admits_text⟩
  · rw [hbrackets]
    exact h.brackets
  · rw [hbrackets]
    exact h.counted

theorem enter (h : r.Nests spans) (hk : r.Admits kind) (offset : Nat) :
    r.Reaches spans (r.enter kind offset).2 (r.enter kind offset).1 := by
  have hraw := h.not_mem_spans hk.script
  refine ⟨kind :: spans, ⟨h.paragraph, h.styles, ?_, ?_, hraw⟩, .single ?_⟩
  · exact List.forall_mem_cons.mpr ⟨hk.bracket, h.brackets⟩
  · exact (h.counted.cons kind).trans List.perm_middle.symm
  · exact h.admits_inline hraw (SpanKind.isInline_of_isBracket hk.bracket)

theorem leads_stop (h : r.Nests spans) (hk : kind.isInline = true) :
    Event.Leads (spans ++ [r.paragraph]) [.stop kind] (spans.erase kind ++ [r.paragraph]) := by
  have herase : (spans ++ [r.paragraph]).erase kind = spans.erase kind ++ [r.paragraph] := by
    rw [List.erase_append]
    split
    · rfl
    · rename_i hmem
      rw [List.erase_cons_tail (by simpa using (h.ne_paragraph hk).symm),
        List.erase_of_not_mem hmem]
      rfl
  rw [← herase]
  exact .single (.inl hk)

theorem script_erase (h : r.Nests spans) (kind : SpanKind) :
    SpanKind.rawScript ∉ (spans.erase kind).tail := by
  intro hmem
  exact h.script ((List.erase_sublist.tail).subset hmem)

theorem leave (h : r.Nests spans) (hk : kind.isBracket = true) :
    r.Reaches spans (r.leave kind).2 (r.leave kind).1 := by
  have hbrackets := brackets_leave r kind
  refine ⟨spans.erase kind, ⟨h.paragraph, h.styles, ?_, ?_, h.script_erase kind⟩,
    h.leads_stop (SpanKind.isInline_of_isBracket hk)⟩
  · intro other hother
    rw [hbrackets] at hother
    exact h.brackets other (List.mem_of_mem_erase hother)
  · have hstyles : kind ∉ r.styles := by
      intro hmem
      have hs := h.styles kind hmem
      revert hs hk
      cases kind <;> decide
    rw [hbrackets]
    have hperm := h.counted.erase kind
    rwa [List.erase_append_right _ hstyles] at hperm

theorem toggle (h : r.Nests spans) (hk : kind.isStyle = true)
    (hscript : SpanKind.rawScript ∉ r.brackets) :
    r.Reaches spans (r.toggle kind).2 (r.toggle kind).1 := by
  have hinline := SpanKind.isInline_of_isStyle hk
  have hraw := h.not_mem_spans hscript
  unfold Resolver.toggle
  split
  · rename_i hmem
    rw [List.contains_iff_mem] at hmem
    refine ⟨spans.erase kind, ⟨h.paragraph, ?_, h.brackets, ?_, h.script_erase kind⟩,
      h.leads_stop hinline⟩
    · intro other hother
      exact h.styles other (List.mem_of_mem_erase hother)
    · have hperm := h.counted.erase kind
      rwa [List.erase_append_left _ hmem] at hperm
  · refine ⟨kind :: spans, ⟨h.paragraph, ?_, h.brackets, h.counted.cons kind, hraw⟩, .single ?_⟩
    · exact List.forall_mem_cons.mpr ⟨hk, h.styles⟩
    · exact h.admits_inline hraw hinline

theorem leads_stop_styles {kinds styles : List SpanKind}
    (hstyles : ∀ kind ∈ styles, kind.isStyle = true) :
    Event.Leads kinds (styles.map .stop) (kinds.diff styles) := by
  induction styles generalizing kinds with
  | nil => exact .nil kinds
  | cons style styles ih =>
    rw [List.diff_cons]
    refine .cons (.inl (SpanKind.isInline_of_isStyle (hstyles style List.mem_cons_self))) ?_
    exact ih fun kind hk => hstyles kind (List.mem_cons_of_mem _ hk)

theorem leads_start_styles {kinds styles : List SpanKind}
    (hkinds : ∀ kind, kind.isInline = true →
      (SpanKind.innermost kinds).admits (some kind) = true)
    (hstyles : ∀ kind ∈ styles, kind.isStyle = true) :
    Event.Leads kinds (styles.map .start) (styles.reverse ++ kinds) := by
  induction styles generalizing kinds with
  | nil => exact .nil kinds
  | cons style styles ih =>
    have hstyle := hstyles style List.mem_cons_self
    refine .cons (hkinds style (SpanKind.isInline_of_isStyle hstyle)) ?_
    rw [List.reverse_cons, List.append_assoc]
    apply ih
    · intro kind hk
      apply SpanKind.admits_of_text (SpanKind.admits_text_of_isStyle hstyle) _ hk
      rintro rfl
      cases hstyle
    · intro kind hk
      exact hstyles kind (List.mem_cons_of_mem _ hk)

/-- Without bracket spans, the end of all emphasis leaves only the paragraph open. -/
theorem leads_stops (h : r.Nests spans) (hopened : r.opened = []) :
    Event.Leads (spans ++ [r.paragraph]) (r.styles.map .stop) [r.paragraph] := by
  have hself (styles : List SpanKind) :
      (styles ++ [r.paragraph]).diff styles = [r.paragraph] := by
    induction styles with
    | nil => rfl
    | cons style styles ih => rw [List.cons_append, List.diff_cons, List.erase_cons_head, ih]
  have hdiff : (spans ++ [r.paragraph]).diff r.styles = [r.paragraph] := by
    have hperm := (h.counted.append_right [r.paragraph]).diff_right r.styles
    rw [Resolver.brackets, hopened, List.map_nil, List.append_nil, hself] at hperm
    exact List.perm_singleton.mp hperm
  have hleads : Event.Leads (spans ++ [r.paragraph]) _ _ := leads_stop_styles h.styles
  rwa [hdiff] at hleads

theorem leads_close (h : r.Nests spans) (hopened : r.opened = []) :
    Event.Leads (spans ++ [r.paragraph]) (r.styles.map .stop ++ [.stop r.paragraph]) [] := by
  apply (h.leads_stops hopened).append
  have hlast :
      Event.Leads [r.paragraph] [.stop r.paragraph] ([r.paragraph].erase r.paragraph) :=
    .single (.inr rfl)
  rwa [List.erase_cons_head] at hlast

theorem newParagraph (h : r.Nests spans) (hk : kind.isParagraphLike = true)
    {between : Option SpanKind} (hb : ∀ leaf ∈ between, leaf = .horizontalRule) {offset : Nat}
    (hp : r.newParagraph kind between offset = .ok (r', es)) : r.Reaches spans es r' := by
  unfold Resolver.newParagraph at hp
  split at hp
  · cases hp
  · rename_i hnone
    have hopened := List.getLast?_eq_none_iff.mp hnone
    cases hp
    have hcounted : r.styles.Perm (r.styles ++ r.brackets) := by
      simp [Resolver.brackets, hopened]
    have hscript : SpanKind.rawScript ∉ r.styles.tail := by
      intro hmem
      cases h.styles _ (List.mem_of_mem_tail hmem)
    refine ⟨r.styles, ⟨hk, h.styles, h.brackets, hcounted, hscript⟩, ?_⟩
    have hbetween : Event.Leads [] (between.toList.map .single) [] := by
      cases between with
      | none => exact .nil []
      | some leaf =>
        cases hb leaf rfl
        exact .single rfl
    have hstart :
        Event.Leads [] (.start kind :: r.styles.reverse.map .start) (r.styles ++ [kind]) := by
      refine .cons (by simp [Event.Fits, SpanKind.innermost, SpanKind.admits, hk]) ?_
      have hstarts : Event.Leads [kind] (r.styles.reverse.map .start)
          (r.styles.reverse.reverse ++ [kind]) := by
        apply leads_start_styles
        · intro style hstyle
          apply SpanKind.admits_of_text (SpanKind.admits_text_of_isParagraphLike hk) _ hstyle
          rintro rfl
          cases hk
        · intro style hstyle
          exact h.styles style (List.mem_reverse.mp hstyle)
      rwa [List.reverse_reverse] at hstarts
    have hall := (h.leads_close hopened).append (hbetween.append hstart)
    simpa using hall

theorem acts (h : r.Nests spans) (ha : Acts breaks r es r') : r.Reaches spans es r' := by
  induction ha generalizing spans with
  | stay r => exact ⟨spans, h, .nil _⟩
  | text r s => exact h.text s
  | enter admitted offset => exact h.enter admitted offset
  | leave bracket inside => exact h.leave bracket
  | toggle style script => exact h.toggle style script
  | leaf script => exact ⟨spans, h, .single (h.admits_inline (h.not_mem_spans script) rfl)⟩
  | paragraph ends block rule ok => exact h.newParagraph block rule ok
  | trans before after ihBefore ihAfter =>
    obtain ⟨between, hbetween, hl⟩ := ihBefore h
    obtain ⟨final, hfinal, hl'⟩ := ihAfter hbetween
    exact ⟨final, hfinal, hl.append hl'⟩

theorem step (h : r.Nests spans) (hs : r.step t = .ok (r', es)) : r.Reaches spans es r' := by
  have hacts : Acts true r es r' := .of_step (fun _ _ _ => rfl) hs
  exact h.acts hacts

theorem run (h : r.Nests spans) (hr : r.Run tokens events last) :
    r.Reaches spans events last := by
  have hacts : Acts true r events last := .of_run (fun _ _ _ _ _ => rfl) hr
  exact h.acts hacts

theorem initial : Resolver.initial.Nests [] :=
  ⟨rfl, by simp [Resolver.initial], by simp [Resolver.initial, Resolver.brackets],
    by simp [Resolver.initial, Resolver.brackets], by simp⟩

end Nests

end Resolver

section Tree

variable {tokens : List (Token Feature)} {events : List Event} {maxDepth : Nat} {tree : Range}

/-- The events of a text: the first paragraph's start, those of its tokens, and the end of what
they leave open. -/
theorem Event.ofTokens_eq_ok (h : Event.ofTokens tokens = .ok events) :
    ∃ out last, Resolver.initial.Run tokens out last ∧ last.opened = [] ∧
      events = coalesce
        (.start .paragraph :: out ++ (last.styles.map .stop ++ [.stop last.paragraph])) := by
  obtain ⟨⟨last, all⟩, hsteps, h⟩ := bind_eq_ok_iff.mp h
  obtain ⟨close, hclose, h⟩ := bind_eq_ok_iff.mp h
  cases h
  obtain ⟨out, hall, hrun⟩ := Resolver.run_of_steps hsteps
  rw [Resolver.finish] at hclose
  split at hclose
  · cases hclose
  · rename_i hnone
    cases hclose
    refine ⟨out, last, hrun, List.getLast?_eq_none_iff.mp hnone, ?_⟩
    rw [hall]
    rfl

theorem Range.document_of_tokens (h : Event.ofTokens tokens = .ok events)
    (ht : Range.ofEvents maxDepth events = .ok tree) :
    ∃ parts, tree = .node .document parts ∧ SpanKind.document.Holds parts := by
  obtain ⟨out, last, hrun, hopened, rfl⟩ := Event.ofTokens_eq_ok h
  obtain ⟨b, hb, ht⟩ := bind_eq_ok_iff.mp ht
  cases ht
  rw [Builder.foldlM_coalesce] at hb
  obtain ⟨spans, hspans, hl⟩ := Resolver.Nests.initial.run hrun
  have hstart : Event.Leads [] [.start .paragraph] [.paragraph] := .single rfl
  have hleads := (hstart.append hl).append (hspans.leads_close hopened)
  obtain ⟨hsound, hkinds⟩ := Builder.sound_empty.run hleads rfl hb
  rw [List.map_eq_nil_iff.mp hkinds]
  exact ⟨_, rfl, hsound.parts.reverse⟩

/-- Without markers between paragraphs the document is a single one. -/
theorem Range.paragraph_of_tokens (h : Event.ofTokens tokens = .ok events)
    (ht : Range.ofEvents maxDepth events = .ok tree)
    (hinline : ∀ t ∈ tokens, ∀ feature ∈ t.tag, feature.isInline = true) :
    ∃ children, tree = .node .document [.node .paragraph children] := by
  obtain ⟨out, last, hrun, hopened, rfl⟩ := Event.ofTokens_eq_ok h
  obtain ⟨b, hb, ht⟩ := bind_eq_ok_iff.mp ht
  cases ht
  rw [Builder.foldlM_coalesce, ← List.append_assoc, List.foldlM_append, List.cons_append,
    List.foldlM_cons] at hb
  obtain ⟨before, hbefore, hb⟩ := bind_eq_ok_iff.mp hb
  obtain ⟨begun, hbegun, hbefore⟩ := bind_eq_ok_iff.mp hbefore
  have hacts : Resolver.Acts false Resolver.initial out last := by
    apply Resolver.Acts.of_run _ hrun
    intro t ht feature hfeature houter
    cases houter.symm.trans (hinline t ht feature hfeature)
  obtain ⟨hp, hstops⟩ := hacts.stays
  obtain ⟨spans, hspans, hl⟩ := Resolver.Nests.initial.run hrun
  have hleads := hl.append (hspans.leads_stops hopened)
  have hkinds : begun.kinds = [.paragraph] := Builder.kinds_step hbegun
  -- All but the last event leave the paragraph open, and the last finds nothing else open.
  have hopen : before.kinds = [last.paragraph] := by
    have hsound := Builder.sound_empty.step (by rfl) hbegun
    exact (hsound.run hleads hkinds hbefore).2
  have hparts : before.parts = [] := by
    have hbegin : begun.parts = [] := by
      rw [Builder.eq_of_step hbegun]
      rfl
    rw [Builder.parts_run (by rw [hkinds]; rfl) ?_ hbefore, hbegin]
    rintro e he rfl
    rcases List.mem_append.mp he with he | he
    · cases hstops _ he
    · obtain ⟨style, hstyle, hkind⟩ := List.mem_map.mp he
      cases hkind
      cases hspans.styles _ hstyle
  obtain ⟨frames, parts⟩ := before
  obtain ⟨f, rfl, hf⟩ := List.map_eq_singleton_iff.mp hopen
  cases hparts
  obtain ⟨b', hb', hb⟩ := bind_eq_ok_iff.mp hb
  cases hb
  cases hb'
  rw [← hf, Builder.leave_single]
  exact ⟨f.parts.reverse, by rw [Frame.close, hf, hp]; rfl⟩

end Tree

end Fabula
