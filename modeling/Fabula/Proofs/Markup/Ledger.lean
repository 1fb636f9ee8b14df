import Fabula.Proofs.Markup.Resolution

namespace Fabula

theorem SpanKind.isParagraphLike_of_isInline {kind : SpanKind} (h : kind.isInline = true) :
    kind.isParagraphLike = false := by
  revert h
  cases kind <;> decide

namespace Event

/-- The starts without an end after an event; an end needs one of its kind before it. -/
def settle (owed : Multiset SpanKind) : Event → Option (Multiset SpanKind)
  | text _ => some owed
  | start kind => some (kind ::ₘ owed)
  | stop kind => if kind ∈ owed then some (owed.erase kind) else none
  | single _ => some owed

/-- Events lead from some starts without an end to others. A paragraph ends last of all that is
owed. -/
inductive Settles : Multiset SpanKind → List Event → Multiset SpanKind → Prop where
  | nil (owed : Multiset SpanKind) : Settles owed [] owed
  | text {owed left : Multiset SpanKind} {events : List Event} (s : String)
      (rest : Settles owed events left) : Settles owed (.text s :: events) left
  | start {owed left : Multiset SpanKind} {events : List Event} (kind : SpanKind)
      (rest : Settles (kind ::ₘ owed) events left) : Settles owed (.start kind :: events) left
  | stop {owed left : Multiset SpanKind} {events : List Event} {kind : SpanKind}
      (due : kind ∈ owed)
      (last : kind.isParagraphLike = true → owed = {kind})
      (rest : Settles (owed.erase kind) events left) : Settles owed (.stop kind :: events) left
  | single {owed left : Multiset SpanKind} {events : List Event} (kind : SpanKind)
      (rest : Settles owed events left) : Settles owed (.single kind :: events) left

namespace Settles

variable {owed next left : Multiset SpanKind} {events front back : List Event} {kind : SpanKind}

theorem append (h : Settles owed front next) (h' : Settles next back left) :
    Settles owed (front ++ back) left := by
  induction h with
  | nil owed => exact h'
  | text s rest ih => exact .text s (ih h')
  | start kind rest ih => exact .start kind (ih h')
  | stop due last rest ih => exact .stop due last (ih h')
  | single kind rest ih => exact .single kind (ih h')

theorem foldlM_settle (h : Settles owed events left) :
    events.foldlM settle owed = some left := by
  induction h with
  | nil owed => rfl
  | text s rest ih => exact ih
  | start kind rest ih => exact ih
  | stop due last rest ih =>
    rw [List.foldlM_cons, settle, if_pos due]
    exact ih
  | single kind rest ih => exact ih

theorem foldlM_front (h : Settles owed (front ++ .stop kind :: back) left)
    (hk : kind.isParagraphLike = true) : front.foldlM settle owed = some {kind} := by
  induction front generalizing owed with
  | nil =>
    cases h with
    | stop due last rest => exact congrArg some (last hk)
  | cons e front ih =>
    rw [List.foldlM_cons]
    cases h with
    | text s rest => exact ih rest
    | start kind rest => exact ih rest
    | stop due last rest =>
      rw [settle, if_pos due]
      exact ih rest
    | single kind rest => exact ih rest

theorem coalesce (h : Settles owed events left) :
    Settles owed (Event.coalesce events) left := by
  fun_induction Event.coalesce events generalizing owed with
  | case1 => exact h
  | case2 s rest t rest' hrest ih =>
    cases h with
    | text _ h =>
      have hjoined := ih h
      rw [hrest] at hjoined
      cases hjoined with
      | text _ hjoined => exact .text _ hjoined
  | case3 s rest hrest ih =>
    cases h with
    | text _ h => exact .text s (ih h)
  | case4 e rest he ih =>
    cases h with
    | text s h => exact .text s (ih h)
    | start kind h => exact .start kind (ih h)
    | stop due last h => exact .stop due last (ih h)
    | single kind h => exact .single kind (ih h)

theorem stop_inline (due : kind ∈ owed) (hk : kind.isInline = true) :
    Settles owed [.stop kind] (owed.erase kind) := by
  refine .stop due ?_ (.nil _)
  intro hblock
  cases hblock.symm.trans (SpanKind.isParagraphLike_of_isInline hk)

theorem starts (kinds : List SpanKind) : Settles owed (kinds.map .start) (owed + kinds) := by
  induction kinds generalizing owed with
  | nil =>
    rw [Multiset.coe_nil, add_zero]
    exact .nil owed
  | cons kind kinds ih =>
    rw [← Multiset.cons_coe, Multiset.add_cons, ← Multiset.cons_add]
    exact .start kind ih

theorem stops {kinds : List SpanKind} (hkinds : ∀ kind ∈ kinds, kind.isInline = true) :
    Settles (owed + kinds) (kinds.map .stop) owed := by
  induction kinds with
  | nil =>
    rw [Multiset.coe_nil, add_zero]
    exact .nil owed
  | cons kind kinds ih =>
    obtain ⟨hk, hkinds⟩ := List.forall_mem_cons.mp hkinds
    rw [← Multiset.cons_coe, Multiset.add_cons]
    have hfirst := stop_inline (Multiset.mem_cons_self kind (owed + kinds)) hk
    rw [Multiset.erase_cons_head] at hfirst
    exact hfirst.append (ih hkinds)

end Settles

end Event

namespace SpanKind

variable {kind : SpanKind} {kinds : List SpanKind}

/-- Bracket spans that can be open together, innermost first: of all but conditionals there is
one at most, in raw script nothing opens, and no hidden span opens in an insert. -/
structure Orderly (kinds : List SpanKind) : Prop where
  brackets : ∀ kind ∈ kinds, kind.isBracket = true
  once : ∀ kind, kind ≠ conditional → kinds.count kind ≤ 1
  script : rawScript ∉ kinds.tail
  apart : kinds.Pairwise fun inner outer => inner = hidden → outer ≠ insert

namespace Orderly

theorem nil : Orderly [] :=
  ⟨by simp, by simp, by simp, .nil⟩

theorem cons (h : Orderly kinds) (hk : kind.isBracket = true) (hscript : rawScript ∉ kinds)
    (honce : kind ≠ conditional → kind ∉ kinds) (hhidden : kind = hidden → insert ∉ kinds) :
    Orderly (kind :: kinds) := by
  refine ⟨List.forall_mem_cons.mpr ⟨hk, h.brackets⟩, ?_, hscript,
    List.pairwise_cons.mpr ⟨?_, h.apart⟩⟩
  · intro other hother
    by_cases heq : kind = other
    · subst heq
      rw [List.count_cons_self, List.count_eq_zero.mpr (honce hother)]
    · rw [List.count_cons_of_ne heq]
      exact h.once other hother
  · rintro outer houter hkind rfl
    exact hhidden hkind houter

theorem erase (h : Orderly kinds) (kind : SpanKind) : Orderly (kinds.erase kind) := by
  have hsub : (kinds.erase kind).Sublist kinds := List.erase_sublist
  refine ⟨?_, ?_, ?_, h.apart.sublist hsub⟩
  · intro other hother
    exact h.brackets other (hsub.subset hother)
  · intro other hother
    exact Nat.le_trans (hsub.count_le other) (h.once other hother)
  · intro hmem
    exact h.script (hsub.tail.subset hmem)

end Orderly

end SpanKind

namespace Resolver

variable {r r' last : Resolver} {tokens : List (Token Feature)} {es events : List Event}
  {kind : SpanKind} {breaks : Bool}

/-- What has been started and not ended: the paragraph, emphasis and bracket spans. -/
def owed (r : Resolver) : Multiset SpanKind := r.paragraph ::ₘ (r.styles + r.brackets)

structure Lawful (r : Resolver) : Prop where
  paragraph : r.paragraph.isParagraphLike = true
  styles : ∀ kind ∈ r.styles, kind = .emphasis ∨ kind = .strongEmphasis
  stylesOnce : r.styles.Nodup
  orderly : SpanKind.Orderly r.brackets
  awaiting : ∀ o ∈ r.opened, o.awaitingColon = true → o.kind = .conditional

structure Keeps (r : Resolver) (es : List Event) (r' : Resolver) : Prop where
  lawful : r'.Lawful
  settles : Event.Settles r.owed es r'.owed

namespace Lawful

theorem isInline_styles (h : r.Lawful) : ∀ kind ∈ r.styles, kind.isInline = true := by
  intro kind hk
  rcases h.styles kind hk with rfl | rfl <;> rfl

theorem text (h : r.Lawful) (s : String) : r.Keeps (r.text s).2 (r.text s).1 := by
  have hbrackets := brackets_text r s
  refine ⟨⟨h.paragraph, h.styles, h.stylesOnce, by rw [hbrackets]; exact h.orderly, ?_⟩, ?_⟩
  · -- Only the innermost span changes, and it awaits no colon after that.
    intro o ho hawaits
    have hopened := h.awaiting
    simp only [Resolver.text] at ho
    split at ho
    · cases ho
    · rename_i top rest hcons
      rw [hcons] at hopened
      obtain ⟨htop, hrest⟩ := List.forall_mem_cons.mp hopened
      split at ho
      · rcases List.mem_cons.mp ho with rfl | ho
        · cases hawaits
        · exact hrest o ho hawaits
      · exact hopened o ho hawaits
  · have howed : (r.text s).1.owed = r.owed := by
      rw [owed, owed, hbrackets]
      rfl
    rw [howed]
    exact .text s (.nil _)

theorem enter (h : r.Lawful) (hk : r.Admits kind) (offset : Nat) :
    r.Keeps (r.enter kind offset).2 (r.enter kind offset).1 := by
  refine ⟨⟨h.paragraph, h.styles, h.stylesOnce,
    h.orderly.cons hk.bracket hk.script hk.once hk.hidden, ?_⟩, ?_⟩
  · intro o ho hawaits
    rcases List.mem_cons.mp ho with rfl | ho
    · simpa using hawaits
    · exact h.awaiting o ho hawaits
  · have howed : (r.enter kind offset).1.owed = kind ::ₘ r.owed := by
      simp only [owed, brackets, Resolver.enter, List.map_cons, ← Multiset.cons_coe,
        Multiset.add_cons]
      exact Multiset.cons_swap _ _ _
    rw [howed]
    exact .start kind (.nil _)

theorem leave (h : r.Lawful) (hk : kind.isBracket = true) (hin : r.inside kind = true) :
    r.Keeps (r.leave kind).2 (r.leave kind).1 := by
  have hbrackets := brackets_leave r kind
  refine ⟨⟨h.paragraph, h.styles, h.stylesOnce,
    by rw [hbrackets]; exact h.orderly.erase kind, ?_⟩, ?_⟩
  · intro o ho
    exact h.awaiting o (List.mem_of_mem_eraseP ho)
  · have hinline := SpanKind.isInline_of_isBracket hk
    have hmem : kind ∈ (r.brackets : Multiset SpanKind) := inside_iff.mp hin
    have howed : (r.leave kind).1.owed = r.owed.erase kind := by
      rw [owed, owed, hbrackets,
        Multiset.erase_cons_tail_of_mem (Multiset.mem_add.mpr (.inr hmem)),
        Multiset.erase_add_right_pos _ hmem, Multiset.coe_erase]
      rfl
    rw [howed]
    exact Event.Settles.stop_inline
      (Multiset.mem_cons_of_mem (Multiset.mem_add.mpr (.inr hmem))) hinline

theorem toggle (h : r.Lawful) (hk : kind.isStyle = true) :
    r.Keeps (r.toggle kind).2 (r.toggle kind).1 := by
  have hinline := SpanKind.isInline_of_isStyle hk
  rw [Resolver.toggle]
  split
  · rename_i hmem
    replace hmem : kind ∈ (r.styles : Multiset SpanKind) := List.contains_iff_mem.mp hmem
    refine ⟨⟨h.paragraph, ?_, h.stylesOnce.erase kind, h.orderly, h.awaiting⟩, ?_⟩
    · intro other hother
      exact h.styles other (List.mem_of_mem_erase hother)
    · have howed :
          Resolver.owed { r with styles := r.styles.erase kind } = r.owed.erase kind := by
        rw [owed, owed, Multiset.erase_cons_tail_of_mem (Multiset.mem_add.mpr (.inl hmem)),
          Multiset.erase_add_left_pos _ hmem, Multiset.coe_erase]
        rfl
      rw [howed]
      exact Event.Settles.stop_inline
        (Multiset.mem_cons_of_mem (Multiset.mem_add.mpr (.inl hmem))) hinline
  · rename_i hmem
    replace hmem : kind ∉ r.styles := fun hk => hmem (List.contains_iff_mem.mpr hk)
    refine ⟨⟨h.paragraph, ?_, List.nodup_cons.mpr ⟨hmem, h.stylesOnce⟩, h.orderly, h.awaiting⟩,
      ?_⟩
    · refine List.forall_mem_cons.mpr ⟨?_, h.styles⟩
      revert hk
      cases kind <;> decide
    · have howed : Resolver.owed { r with styles := kind :: r.styles } = kind ::ₘ r.owed := by
        simp only [owed, ← Multiset.cons_coe, Multiset.cons_add]
        exact Multiset.cons_swap _ _ _
      rw [howed]
      exact .start kind (.nil _)

/-- With no bracket span open, the end of all emphasis and of the paragraph leaves nothing
owed. -/
theorem settles_close (h : r.Lawful) (hopened : r.opened = []) :
    Event.Settles r.owed (r.styles.map .stop ++ [.stop r.paragraph]) 0 := by
  have howed : r.owed = {r.paragraph} + (r.styles : Multiset SpanKind) := by
    simp [owed, brackets, hopened]
  rw [howed]
  apply (Event.Settles.stops h.isInline_styles).append
  refine .stop (Multiset.mem_singleton_self _) (fun _ => rfl) ?_
  rw [Multiset.erase_singleton]
  exact .nil 0

theorem newParagraph (h : r.Lawful) (hk : kind.isParagraphLike = true)
    {between : Option SpanKind} {offset : Nat}
    (hp : r.newParagraph kind between offset = .ok (r', es)) : r.Keeps es r' := by
  rw [Resolver.newParagraph] at hp
  split at hp
  · cases hp
  · rename_i hnone
    have hopened := List.getLast?_eq_none_iff.mp hnone
    cases hp
    refine ⟨⟨hk, h.styles, h.stylesOnce, h.orderly, h.awaiting⟩, ?_⟩
    have hbetween : Event.Settles 0 (between.toList.map .single) 0 := by
      cases between with
      | none => exact .nil 0
      | some leaf => exact .single leaf (.nil 0)
    have howed : Resolver.owed { r with paragraph := kind } =
        kind ::ₘ 0 + (r.styles.reverse : Multiset SpanKind) := by
      simp [owed, brackets, hopened]
    have hstart : Event.Settles 0 (.start kind :: r.styles.reverse.map .start)
        (Resolver.owed { r with paragraph := kind }) := by
      rw [howed]
      exact .start kind (.starts _)
    have hall := (h.settles_close hopened).append (hbetween.append hstart)
    simpa using hall

theorem acts (h : r.Lawful) (ha : Acts breaks r es r') : r.Keeps es r' := by
  induction ha with
  | stay r => exact ⟨h, .nil _⟩
  | text r s => exact h.text s
  | enter admitted offset => exact h.enter admitted offset
  | leave bracket inside => exact h.leave bracket inside
  | toggle style script => exact h.toggle style
  | leaf script => exact ⟨h, .single _ (.nil _)⟩
  | paragraph ends block rule ok => exact h.newParagraph block ok
  | trans before after ihBefore ihAfter =>
    have hfirst := ihBefore h
    have hsecond := ihAfter hfirst.lawful
    exact ⟨hsecond.lawful, hfirst.settles.append hsecond.settles⟩

theorem initial : Resolver.initial.Lawful :=
  ⟨rfl, by simp [Resolver.initial], .nil, .nil, by simp [Resolver.initial]⟩

end Lawful

theorem Lawful.run (h : r.Lawful) (hr : r.Run tokens events last) : r.Keeps events last := by
  have hacts : Acts true r events last := .of_run (fun _ _ _ _ _ => rfl) hr
  exact h.acts hacts

theorem keeps_of_steps {out : Array Event}
    (h : initial.steps #[.start initial.paragraph] tokens = .ok (r, out)) :
    r.Lawful ∧ Event.Settles 0 out.toList r.owed := by
  obtain ⟨events, hout, hrun⟩ := run_of_steps h
  have hkeeps := Lawful.initial.run hrun
  rw [hout]
  exact ⟨hkeeps.lawful, .start _ hkeeps.settles⟩

end Resolver

theorem Event.settles_ofTokens {tokens : List (Token Feature)} {events : List Event}
    (h : Event.ofTokens tokens = .ok events) : Event.Settles 0 events 0 := by
  obtain ⟨out, last, hrun, hopened, rfl⟩ := Event.ofTokens_eq_ok h
  have hkeeps := Resolver.Lawful.initial.run hrun
  have hbegun : Event.Settles 0 (.start .paragraph :: out) last.owed := .start _ hkeeps.settles
  exact (hbegun.append (hkeeps.lawful.settles_close hopened)).coalesce

/-- The ledger of every text. After each prefix of its tokens the state is lawful, every end so
far has met a start of its kind, and the starts without an end are the paragraph, the emphasis
and the bracket spans that are open. When all tokens resolve nothing is left without an end, and
each paragraph ends after all that was started inside it. -/
theorem Resolver.ledger_balanced (tokens : List (Token Feature)) :
    (∀ front back r out, tokens = front ++ back →
        initial.steps #[.start initial.paragraph] front = .ok (r, out) →
          r.Lawful ∧ out.toList.foldlM Event.settle 0 = some r.owed) ∧
      ∀ events, Event.ofTokens tokens = .ok events →
        events.foldlM Event.settle 0 = some 0 ∧
          ∀ front kind back, events = front ++ .stop kind :: back →
            kind.isParagraphLike = true →
            front.foldlM Event.settle 0 = some {kind} := by
  constructor
  · intro front back r out _ h
    obtain ⟨hlawful, hsettles⟩ := keeps_of_steps h
    exact ⟨hlawful, hsettles.foldlM_settle⟩
  · intro events h
    have hsettles := Event.settles_ofTokens h
    refine ⟨hsettles.foldlM_settle, ?_⟩
    rintro front kind back rfl hk
    exact hsettles.foldlM_front hk

def Resolver.crossed : List (Token Feature) :=
  [⟨some .emphasis, 0, "*"⟩, ⟨none, 1, "a"⟩, ⟨some .paragraphBreak, 2, "\n\n"⟩,
    ⟨some .hiddenOpen, 4, "["⟩, ⟨some .insertOpen, 5, "[+"⟩, ⟨some .rawOpen, 7, "\x7b!"⟩,
    ⟨some .hiddenOpen, 9, "["⟩, ⟨some .rawClose, 10, "!\x7d"⟩, ⟨some .hiddenClose, 12, "]"⟩,
    ⟨some .insertClose, 13, "+]"⟩]

/-- In the script four spans are open in the second paragraph; the first has ended with its
emphasis, which goes on. -/
theorem Resolver.crossed_balanced :
    ∃ r out events, initial.steps #[.start initial.paragraph] (crossed.take 7) = .ok (r, out) ∧
      r.Lawful ∧
      r.owed = {.paragraph, .emphasis, .rawScript, .insert, .hidden} ∧
      out.toList.foldlM Event.settle 0 =
        some {.paragraph, .emphasis, .rawScript, .insert, .hidden} ∧
      Event.ofTokens crossed = .ok events ∧ events.foldlM Event.settle 0 = some 0 ∧
      (events.take 4).foldlM Event.settle 0 = some {.paragraph} := by
  obtain ⟨hearly, hwhole⟩ := ledger_balanced crossed
  obtain ⟨hlawful, howed⟩ := hearly (crossed.take 7) (crossed.drop 7) _ _ (by rfl) rfl
  obtain ⟨hend, hparagraphs⟩ := hwhole _ rfl
  refine ⟨_, _, _, rfl, hlawful, ?_, ?_, rfl, hend, ?_⟩
  · decide
  · exact howed.trans (by decide)
  · exact hparagraphs _ .paragraph _ rfl rfl

end Fabula
