import Fabula.Proofs.Markup.Building

namespace Fabula

namespace SpanKind

def isInline : SpanKind → Bool
  | emphasis | strongEmphasis | hidden | conditional | insert | rawScript | lineBreak => true
  | _ => false

/-- What may stand directly in a span: text, which has no kind, or a span of another kind. -/
def admits : SpanKind → Option SpanKind → Bool
  | document, none => false
  | document, some inner => inner.isParagraphLike || inner == horizontalRule
  | rawScript, inner => inner.isNone
  | lineBreak, _ => false
  | horizontalRule, _ => false
  | _, none => true
  | _, some inner => inner.isInline

variable {outer kind inner : SpanKind} {kinds : List SpanKind}

theorem isInline_of_admits (hk : kind.isInline = true) (h : kind.admits (some inner) = true) :
    inner.isInline = true := by
  cases kind <;> simp_all [isInline, admits]

theorem admits_of_isInline (hk : kind.isInline = true) (h : outer.admits (some kind) = true)
    (hi : inner.isInline = true) : outer.admits (some inner) = true := by
  cases outer with
  | document => cases kind <;> simp_all [isInline, admits, isParagraphLike]
  | _ => simp_all [admits]

/-- Whatever can hold text can hold inline spans too, raw script apart. -/
theorem admits_of_text (h : outer.admits none = true) (hraw : outer ≠ rawScript)
    (hi : inner.isInline = true) : outer.admits (some inner) = true := by
  cases outer <;> simp_all [admits]

/-- The kind of the innermost open span; around all of them is the document. -/
def innermost : List SpanKind → SpanKind
  | [] => document
  | kind :: _ => kind

/-- Open spans, innermost first, each of which may stand in the next. -/
def Stacked : List SpanKind → Prop
  | [] => True
  | kind :: kinds => (innermost kinds).admits (some kind) = true ∧ Stacked kinds

/-- A span that is taken out leaves its inside to the span around it. -/
theorem Stacked.erase (hk : kind.isInline = true ∨ kinds.head? = some kind)
    (h : Stacked kinds) : Stacked (kinds.erase kind) := by
  induction kinds with
  | nil => exact h
  | cons top kinds ih =>
    obtain ⟨htop, hrest⟩ := h
    by_cases heq : top = kind
    · rw [heq, List.erase_cons_head]
      exact hrest
    · have hinline : kind.isInline = true := by
        apply hk.resolve_right
        intro hhead
        exact heq (Option.some.inj hhead)
      rw [List.erase_cons_tail (by simpa using heq)]
      refine ⟨?_, ih (.inl hinline) hrest⟩
      cases kinds with
      | nil => exact htop
      | cons next kinds =>
        by_cases hnext : next = kind
        · rw [hnext, List.erase_cons_head]
          rw [hnext] at htop hrest
          exact admits_of_isInline hinline hrest.1 (isInline_of_admits hinline htop)
        · rw [List.erase_cons_tail (by simpa using hnext)]
          exact htop

end SpanKind

namespace Range

def kind? : Range → Option SpanKind
  | text _ => none
  | node kind _ => some kind

inductive WellNested : Range → Prop where
  | text (s : String) : WellNested (.text s)
  | node {kind : SpanKind} {children : List Range}
      (admitted : ∀ r ∈ children, kind.admits r.kind? = true)
      (inner : ∀ r ∈ children, WellNested r) : WellNested (.node kind children)

theorem eq_nil_of_isSingle {kind : SpanKind} {children : List Range} (hk : kind.isSingle = true)
    (h : ∀ r ∈ children, kind.admits r.kind? = true) : children = [] := by
  cases children with
  | nil => rfl
  | cons r children =>
    have hr := h r List.mem_cons_self
    cases kind <;> simp [SpanKind.isSingle, SpanKind.admits] at hk hr

end Range

def SpanKind.Holds (kind : SpanKind) (parts : List Range) : Prop :=
  ∀ r ∈ parts, kind.admits r.kind? = true ∧ r.WellNested

namespace SpanKind.Holds

variable {kind : SpanKind} {parts : List Range} {r : Range}

theorem nil : kind.Holds [] := by
  intro r hr
  cases hr

theorem cons (hr : kind.admits r.kind? = true) (hw : r.WellNested) (h : kind.Holds parts) :
    kind.Holds (r :: parts) := by
  intro r' hr'
  rcases List.mem_cons.mp hr' with rfl | hr'
  · exact ⟨hr, hw⟩
  · exact h r' hr'

theorem reverse (h : kind.Holds parts) : kind.Holds parts.reverse := by
  intro r hr
  exact h r (List.mem_reverse.mp hr)

theorem wellNested (h : kind.Holds parts) : (Range.node kind parts).WellNested :=
  .node (fun r hr => (h r hr).1) (fun r hr => (h r hr).2)

theorem addText {s : String} (ht : kind.admits none = true) (h : kind.Holds parts) :
    kind.Holds (Range.addText s parts) := by
  unfold Range.addText
  split
  · intro r hr
    rcases List.mem_cons.mp hr with rfl | hr
    · exact ⟨ht, .text _⟩
    · exact h r (List.mem_cons_of_mem _ hr)
  · exact h.cons ht (.text s)

end SpanKind.Holds

namespace Event

/-- An event adds what may stand in the innermost open span, and ends a block only after all
inside it. -/
def Fits (kinds : List SpanKind) : Event → Prop
  | text _ => (SpanKind.innermost kinds).admits none = true
  | start kind => (SpanKind.innermost kinds).admits (some kind) = true
  | stop kind => kind.isInline = true ∨ kinds.head? = some kind
  | single kind => (SpanKind.innermost kinds).admits (some kind) = true

/-- Events that all fit lead from some open spans to others. -/
inductive Leads : List SpanKind → List Event → List SpanKind → Prop where
  | nil (kinds : List SpanKind) : Leads kinds [] kinds
  | cons {kinds last : List SpanKind} {e : Event} {events : List Event}
      (fits : e.Fits kinds) (rest : Leads (e.after kinds) events last) :
        Leads kinds (e :: events) last

namespace Leads

variable {kinds next last : List SpanKind} {e : Event} {front events : List Event}

theorem append (h : Leads kinds front next) (h' : Leads next events last) :
    Leads kinds (front ++ events) last := by
  induction h with
  | nil kinds => exact h'
  | cons fits rest ih => exact .cons fits (ih h')

theorem single (h : e.Fits kinds) : Leads kinds [e] (e.after kinds) :=
  .cons h (.nil _)

end Leads

end Event

namespace Move

/-- A move adds only what may stand in the innermost open span. -/
def Fits (kinds : List SpanKind) : Move → Prop
  | write _ => (SpanKind.innermost kinds).admits none = true
  | leaf kind => (SpanKind.innermost kinds).admits (some kind) = true
  | enter kind => (SpanKind.innermost kinds).admits (some kind) = true
  | leave => True

def AllFit : List SpanKind → List Move → Prop
  | _, [] => True
  | kinds, m :: moves => m.Fits kinds ∧ AllFit (m.after kinds) moves

theorem AllFit.append {kinds : List SpanKind} {front back : List Move} (h : AllFit kinds front)
    (h' : AllFit (front.foldl after kinds) back) : AllFit kinds (front ++ back) := by
  induction front generalizing kinds with
  | nil => exact h'
  | cons m front ih => exact ⟨h.1, ih h.2 h'⟩

end Move

namespace Event

variable {kind : SpanKind} {kinds : List SpanKind}

theorem allFit_leaving (h : SpanKind.Stacked (kinds.erase kind)) :
    Move.AllFit kinds (leaving kind kinds) := by
  induction kinds with
  | nil => trivial
  | cons k ks ih =>
    rw [leaving]
    refine ⟨trivial, ?_⟩
    by_cases hk : k = kind
    · rw [if_pos hk]
      trivial
    · rw [List.erase_cons_tail (by simpa using hk)] at h
      rw [if_neg hk]
      apply (ih h.2).append
      rw [foldl_leaving]
      exact ⟨h.1, trivial⟩

theorem Fits.moves {e : Event} (h : e.Fits kinds) (hs : SpanKind.Stacked kinds) :
    Move.AllFit kinds (e.moves kinds) := by
  cases e with
  | text s => exact ⟨h, trivial⟩
  | start kind => exact ⟨h, trivial⟩
  | stop kind =>
    rw [Event.moves]
    split
    · exact allFit_leaving (hs.erase h)
    · trivial
  | single kind => exact ⟨h, trivial⟩

end Event

namespace Builder

variable {kind block : SpanKind} {b b' : Builder} {maxDepth : Nat} {r : Range} {m : Move}
  {ms : List Move} {e : Event} {events : List Event}

structure Sound (b : Builder) : Prop where
  parts : SpanKind.document.Holds b.parts
  frames : ∀ f ∈ b.frames, f.kind.Holds f.parts
  stacked : SpanKind.Stacked b.kinds

theorem sound_empty : empty.Sound :=
  ⟨.nil, by simp [empty], trivial⟩

theorem Sound.onParts {g : List Range → List Range} (h : b.Sound)
    (hg : ∀ parts, (SpanKind.innermost b.kinds).Holds parts →
      (SpanKind.innermost b.kinds).Holds (g parts)) : (b.onParts g).Sound := by
  obtain ⟨frames, parts⟩ := b
  cases frames with
  | nil => exact ⟨hg _ h.parts, h.frames, h.stacked⟩
  | cons top rest =>
    refine ⟨h.parts, ?_, h.stacked⟩
    intro f hf
    rcases List.mem_cons.mp hf with rfl | hf
    · exact hg _ (h.frames top List.mem_cons_self)
    · exact h.frames f (List.mem_cons_of_mem _ hf)

theorem Sound.add (h : b.Sound) (hr : (SpanKind.innermost b.kinds).admits r.kind? = true)
    (hw : r.WellNested) : (b.add r).Sound :=
  h.onParts fun _ hparts => hparts.cons hr hw

theorem Sound.move (h : b.Sound) (hm : m.Fits b.kinds) : (b.move m).Sound := by
  cases m with
  | write s => exact h.onParts fun _ hparts => hparts.addText hm
  | leaf kind => exact h.add hm SpanKind.Holds.nil.wellNested
  | enter kind => exact ⟨h.parts, List.forall_mem_cons.mpr ⟨.nil, h.frames⟩, hm, h.stacked⟩
  | leave =>
    obtain ⟨frames, parts⟩ := b
    cases frames with
    | nil => exact h
    | cons f fs =>
      obtain ⟨hf, hfs⟩ := List.forall_mem_cons.mp h.frames
      have hrest : Sound ⟨fs, parts⟩ := ⟨h.parts, hfs, h.stacked.2⟩
      exact hrest.add h.stacked.1 hf.reverse.wellNested

theorem Sound.moves (h : b.Sound) (hm : Move.AllFit b.kinds ms) :
    (ms.foldl Builder.move b).Sound := by
  induction ms generalizing b with
  | nil => exact h
  | cons m ms ih =>
    apply ih (h.move hm.1)
    rw [kinds_move]
    exact hm.2

theorem Sound.step (hb : b.Sound) (he : e.Fits b.kinds) (h : step maxDepth b e = .ok b') :
    b'.Sound := by
  rw [eq_of_step h]
  exact hb.moves (he.moves hb.stacked)

theorem Sound.run {kinds last : List SpanKind} (hl : Event.Leads kinds events last)
    (hb : b.Sound) (hkinds : b.kinds = kinds)
    (h : events.foldlM (Builder.step maxDepth) b = .ok b') : b'.Sound ∧ b'.kinds = last := by
  induction hl generalizing b with
  | nil kinds =>
    cases h
    exact ⟨hb, hkinds⟩
  | @cons kinds last e events fits rest ih =>
    rw [List.foldlM_cons] at h
    obtain ⟨next, hstep, h⟩ := bind_eq_ok_iff.mp h
    rw [← hkinds] at fits
    apply ih (hb.step fits hstep) _ h
    rw [kinds_step hstep, hkinds]

/-- As long as some span stays open, nothing is added to the document. -/
theorem parts_move (hb : b.kinds ≠ []) (hm : m.after b.kinds ≠ []) :
    (b.move m).parts = b.parts := by
  obtain ⟨frames, parts⟩ := b
  cases frames with
  | nil => exact absurd rfl hb
  | cons f fs =>
    cases m with
    | write s => rfl
    | leaf kind => rfl
    | enter kind => rfl
    | leave =>
      cases fs with
      | nil => exact absurd rfl hm
      | cons next fs => rfl

theorem parts_leaving {kinds : List SpanKind} (hkinds : b.kinds = kinds) (hmem : kind ∈ kinds)
    (hlast : kinds.getLast? ≠ some kind) :
    ((Event.leaving kind kinds).foldl move b).parts = b.parts := by
  induction kinds generalizing b with
  | nil => cases hmem
  | cons k ks ih =>
    have hks : ks ≠ [] := by
      rintro rfl
      exact hlast (by rw [List.mem_singleton.mp hmem]; rfl)
    have htail : (b.move .leave).kinds = ks := by rw [kinds_move, hkinds]; rfl
    have hfirst : (b.move .leave).parts = b.parts := by
      apply parts_move
      · simp [hkinds]
      · rwa [← kinds_move, htail]
    rw [Event.leaving, List.foldl_cons]
    by_cases hk : k = kind
    · rw [if_pos hk]
      exact hfirst
    · have hrest : kind ∈ ks := (List.mem_cons.mp hmem).resolve_left (Ne.symm hk)
      have hlast' : ks.getLast? ≠ some kind := by
        rwa [List.getLast?_cons_of_ne_nil hks] at hlast
      rw [if_neg hk, List.foldl_append, ← hfirst]
      exact ih htail hrest hlast'

theorem parts_step (hlast : b.kinds.getLast? = some block) (hne : e ≠ .stop block)
    (h : step maxDepth b e = .ok b') : b'.parts = b.parts := by
  have hopen : b.kinds ≠ [] := by
    intro hnil
    simp [hnil] at hlast
  rw [eq_of_step h]
  cases e with
  | text s => exact parts_move (m := .write s) hopen hopen
  | start kind => rfl
  | stop kind =>
    rw [Event.moves]
    split
    · rename_i hmem
      apply parts_leaving rfl hmem
      rw [hlast]
      rintro ⟨⟩
      exact hne rfl
    · rfl
  | single kind => exact parts_move (m := .leaf kind) hopen hopen

theorem getLast?_erase {kinds : List SpanKind} (hlast : kinds.getLast? = some block)
    (hne : kind ≠ block) : (kinds.erase kind).getLast? = some block := by
  obtain ⟨spans, rfl⟩ := List.getLast?_eq_some_iff.mp hlast
  rw [List.erase_append]
  split
  · simp
  · simp [List.erase_cons_tail, hne.symm]

theorem getLast?_step (hlast : b.kinds.getLast? = some block) (hne : e ≠ .stop block)
    (h : step maxDepth b e = .ok b') : b'.kinds.getLast? = some block := by
  rw [kinds_step h]
  cases e with
  | text s => exact hlast
  | start kind =>
    rw [Event.after, List.getLast?_cons, hlast]
    rfl
  | stop kind =>
    apply getLast?_erase hlast
    rintro rfl
    exact hne rfl
  | single kind => exact hlast

theorem parts_run (hlast : b.kinds.getLast? = some block) (hne : ∀ e ∈ events, e ≠ .stop block)
    (h : events.foldlM (step maxDepth) b = .ok b') : b'.parts = b.parts := by
  refine (foldlM_preserves
    (P := fun state => state.kinds.getLast? = some block ∧ state.parts = b.parts) ?_
    ⟨hlast, rfl⟩ h).2
  intro e he s s' hs hstep
  exact ⟨getLast?_step hs.1 (hne e he) hstep, (parts_step hs.1 (hne e he) hstep).trans hs.2⟩

theorem leave_single (f : Frame) (parts : List Range) :
    (Builder.mk [f] parts).leave f.kind = ⟨[], f.close :: parts⟩ := by
  simp [leave, unwind, add, onParts]

end Builder

end Fabula
