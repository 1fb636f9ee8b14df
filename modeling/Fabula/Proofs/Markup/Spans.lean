import Fabula.Proofs.Markup.Depth
import Fabula.Proofs.Markup.Fidelity
import Fabula.Proofs.Markup.Tidiness

namespace Fabula

namespace Range

mutual

/-- The spans in a range, each before those inside it. -/
def spans : Range → List Range
  | text _ => []
  | node kind children => node kind children :: spansOf children

def spansOf : List Range → List Range
  | [] => []
  | r :: rest => r.spans ++ spansOf rest

end

@[simp]
theorem spansOf_append (rs rs' : List Range) :
    spansOf (rs ++ rs') = spansOf rs ++ spansOf rs' := by
  induction rs with
  | nil => rfl
  | cons r rs ih => rw [List.cons_append, spansOf, spansOf, ih, List.append_assoc]

def kindsOf (rs : List Range) : List SpanKind := (spansOf rs).filterMap kind?

@[simp]
theorem kindsOf_nil : kindsOf [] = [] := rfl

@[simp]
theorem kindsOf_append (rs rs' : List Range) :
    kindsOf (rs ++ rs') = kindsOf rs ++ kindsOf rs' := by
  rw [kindsOf, spansOf_append, List.filterMap_append]
  rfl

@[simp]
theorem kindsOf_node (kind : SpanKind) (children rs : List Range) :
    kindsOf (node kind children :: rs) = kind :: (kindsOf children ++ kindsOf rs) := by
  simp [kindsOf, spansOf, spans, kind?]

mutual

theorem kinds_spans_eq (depth : Nat) :
    (r : Range) → r.spans.filterMap kind? = (r.sites depth).map Site.kind
  | text _ => rfl
  | node kind children => congrArg (kind :: ·) (kindsOf_eq_sites (depth + 1) children)

theorem kindsOf_eq_sites (depth : Nat) :
    (rs : List Range) → kindsOf rs = (sitesOf depth rs).map Site.kind
  | [] => rfl
  | r :: rest => by
    rw [kindsOf, spansOf, List.filterMap_append, sitesOf, List.map_append,
      kinds_spans_eq depth r, ← kindsOf_eq_sites depth rest, kindsOf]

end

end Range

namespace Event

/-- The spans that an event ends and opens again: those inside the one that it is to end. -/
def reopens (kinds : List SpanKind) : Event → List SpanKind
  | stop kind => if kind ∈ kinds then (kinds.takeWhile (· != kind)).reverse else []
  | _ => []

def opens (kinds : List SpanKind) : Event → List SpanKind
  | start kind => [kind]
  | single kind => [kind]
  | e => e.reopens kinds

/-- What events give one after the other, each by the spans that are open when it comes. -/
def along (f : List SpanKind → Event → List SpanKind) (kinds : List SpanKind) :
    List Event → List SpanKind
  | [] => []
  | e :: rest => f kinds e ++ along f (e.after kinds) rest

theorem apt_of_tokens {tokens : List (Token Feature)} {events : List Event}
    (h : ofTokens tokens = .ok events) : ∀ e ∈ events, e.Apt := by
  obtain ⟨out, last, hrun, -, rfl⟩ := ofTokens_eq_ok h
  obtain ⟨hapt, -⟩ := Resolver.follows_run .initial .initial hrun
  intro e he
  rcases mem_coalesce he with ⟨s, rfl⟩ | he
  · trivial
  · simp only [List.cons_append, List.mem_cons, List.mem_append, List.mem_map, List.not_mem_nil,
      or_false] at he
    rcases he with rfl | he | ⟨style, -, rfl⟩ | rfl
    · rfl
    · exact hapt e he
    · trivial
    · trivial

end Event

theorem SpanKind.map_kind_reopened (kind : SpanKind) (kinds : List SpanKind) :
    (reopened kind kinds).map Site.kind = (kinds.takeWhile (· != kind)).reverse := by
  induction kinds with
  | nil => rfl
  | cons k ks ih =>
    by_cases hk : k = kind
    · simp [reopened, hk]
    · simp [reopened, hk, ih]

namespace Event

theorem map_kind_grows (e : Event) (kinds : List SpanKind) :
    ((e.grows kinds).map Growth.site).map Site.kind = e.opens kinds := by
  cases e with
  | text s => rfl
  | start kind => rfl
  | stop kind =>
    have hopens : (stop kind).opens kinds = (stop kind).reopens kinds := rfl
    rw [hopens, grows, reopens]
    split
    · rw [← SpanKind.map_kind_reopened, List.map_map, List.map_map]
      rfl
    · rfl
  | single kind => rfl

theorem map_kind_grown (kinds : List SpanKind) (events : List Event) :
    ((grown kinds events).map Growth.site).map Site.kind = along opens kinds events := by
  induction events generalizing kinds with
  | nil => rfl
  | cons e events ih => rw [grown, along, List.map_append, List.map_append, map_kind_grows, ih]

end Event

/-- The spans of a tree are those that its events open, in that order, in the document. -/
theorem Range.kindsOf_ofEvents {maxDepth : Nat} {events : List Event} {tree : Range}
    (h : Range.ofEvents maxDepth events = .ok tree) :
    kindsOf [tree] = .document :: Event.along Event.opens [] events := by
  obtain ⟨children, rfl, hsites⟩ := sites_ofEvents h
  rw [kindsOf_node, kindsOf_eq_sites 1 children, hsites, Event.map_kind_grown]
  simp

namespace Range

variable {r : Range} {rs rs' children : List Range} {kind : SpanKind}

mutual

/-- Whether there is nothing in a range but empty texts, spans without anything in them and
blank scripts. -/
def isHollow : Range → Bool
  | text s => s.isEmpty
  | node kind children =>
    if kind.isSingle then false
    else if kind = .rawScript then Text.isBlankText (plainText children)
    else allHollow children

def allHollow : List Range → Bool
  | [] => true
  | r :: rest => r.isHollow && allHollow rest

end

theorem allHollow_iff : allHollow rs = true ↔ ∀ r ∈ rs, r.isHollow = true := by
  induction rs with
  | nil => simp [allHollow]
  | cons r rs ih => simp [allHollow, ih]

theorem isEmptyText_collapse (s : String) :
    (text (Text.collapse s)).isEmptyText = (text s).isEmptyText := by
  have hchars : Text.collapseFrom false s.toList = [] ↔ s.toList = [] := by
    cases s.toList with
    | nil => rfl
    | cons c cs =>
      rw [Text.collapseFrom]
      split <;> simp
  rw [Bool.eq_iff_iff]
  simpa [isEmptyText, Text.collapse] using hchars

theorem startsWithBreak_collapseTexts (h : ∀ r ∈ rs, r.isEmptyText = true) :
    startsWithBreak (collapseTexts rs) = false := by
  cases rs with
  | nil => rfl
  | cons r rs =>
    cases r with
    | text s => rfl
    | node kind children => cases h _ List.mem_cons_self

/-- Outside blocks text is trimmed only next to a line break, which is kept. -/
theorem tidyTexts_eq_nil_iff (hk : kind.isParagraphLike = false) :
    tidyTexts kind rs = [] ↔ ∀ r ∈ rs, r.isEmptyText = true := by
  have htrimmed : (∀ r ∈ trimBeforeBreaks (collapseTexts rs), r.isEmptyText = true) ↔
      ∀ r ∈ rs, r.isEmptyText = true := by
    induction rs with
    | nil => rfl
    | cons r rs ih =>
      cases r with
      | node kind children => simp [collapseTexts, trimBeforeBreaks, isEmptyText]
      | text s =>
        rw [collapseTexts, trimBeforeBreaks, List.forall_mem_cons, List.forall_mem_cons, ih]
        apply and_congr_left
        intro hrs
        rw [startsWithBreak_collapseTexts hrs, if_neg Bool.false_ne_true, isEmptyText_collapse]
  rw [← htrimmed, tidyTexts]
  simp [hk, List.filter_eq_nil_iff]

theorem forall_isEmptyText_consJoined (r : Range) (rs : List Range) :
    (∀ r' ∈ consJoined r rs, r'.isEmptyText = true) ↔
      r.isEmptyText = true ∧ ∀ r' ∈ rs, r'.isEmptyText = true := by
  unfold consJoined
  split
  · rename_i s t rest
    have hjoined : (text (s ++ t)).isEmptyText = true ↔
        (text s).isEmptyText = true ∧ (text t).isEmptyText = true := by
      simp [isEmptyText]
    rw [List.forall_mem_cons, List.forall_mem_cons, hjoined, and_assoc]
  · exact List.forall_mem_cons

theorem forall_isEmptyText_tidyAll
    (h : ∀ r ∈ rs, r.isHollow = true ↔ ∀ kept, r.tidy = some kept → kept.isEmptyText = true) :
    (∀ r ∈ tidyAll rs, r.isEmptyText = true) ↔ ∀ r ∈ rs, r.isHollow = true := by
  induction rs with
  | nil => simp [tidyAll]
  | cons r rs ih =>
    obtain ⟨hr, hrs⟩ := List.forall_mem_cons.mp h
    rw [tidyAll, List.forall_mem_cons, hr, ← ih hrs]
    split
    · rename_i kept hkept
      simp [forall_isEmptyText_consJoined, hkept]
    · rename_i hnone
      simp [hnone]

/-- Inside a block, what is hollow is what tidying leaves nothing of but an empty text. -/
theorem WellNested.isHollow_iff (h : r.WellNested)
    (hinline : ∀ kind, r.kind? = some kind → kind.isInline = true) :
    r.isHollow = true ↔ ∀ kept, r.tidy = some kept → kept.isEmptyText = true := by
  induction h with
  | text s => simp [isHollow, tidy, isEmptyText]
  | @node kind children admitted inner ih =>
    have hkind : kind.isInline = true := hinline kind rfl
    rw [isHollow, tidy]
    split
    · simp [isEmptyText]
    · split
      · dsimp only
        split <;> simp_all [isEmptyText]
      · have hall :
            (∀ r ∈ tidyAll children, r.isEmptyText = true) ↔
              ∀ r ∈ children, r.isHollow = true := by
          apply forall_isEmptyText_tidyAll
          intro r hr
          apply ih r hr
          intro inside hinside
          apply SpanKind.isInline_of_admits hkind
          rw [← hinside]
          exact admitted r hr
        have hblock : kind.isParagraphLike = false ∧ kind ≠ .document := by
          revert hkind
          cases kind <;> decide
        rw [allHollow_iff, ← hall, ← tidyTexts_eq_nil_iff hblock.1]
        dsimp only
        split
        · simp_all
        · simp_all [isEmptyText]

def filledKindsOf (rs : List Range) : List SpanKind :=
  ((spansOf rs).filter (!·.isHollow)).filterMap kind?

theorem filledKindsOf_cons (r : Range) (rs : List Range) :
    filledKindsOf (r :: rs) = filledKindsOf [r] ++ filledKindsOf rs := by
  simp [filledKindsOf, spansOf]

theorem filledKindsOf_node (kind : SpanKind) (children : List Range) :
    filledKindsOf [node kind children] =
      (if (node kind children).isHollow then [] else [kind]) ++ filledKindsOf children := by
  by_cases hh : (node kind children).isHollow = true <;>
    simp [filledKindsOf, spansOf, spans, kind?, hh]

theorem kindsOf_eq_of_frames (h : rs'.map frame? = rs.map frame?) :
    kindsOf rs' = kindsOf rs := by
  induction rs' generalizing rs with
  | nil => rw [List.map_eq_nil_iff.mp h.symm]
  | cons r' rs' ih =>
    cases rs with
    | nil => cases h
    | cons r rs =>
      obtain ⟨hr, hrs⟩ := List.cons.inj h
      cases r with
      | text s =>
        cases r' with
        | text s' =>
          have hkinds := ih hrs
          exact hkinds
        | node => cases hr
      | node kind children =>
        cases r' with
        | text => cases hr
        | node =>
          cases hr
          rw [kindsOf_node, kindsOf_node, ih hrs]

theorem kindsOf_filter (rs : List Range) :
    kindsOf (rs.filter (!·.isEmptyText)) = kindsOf rs := by
  induction rs with
  | nil => rfl
  | cons r rs ih =>
    cases r with
    | text s =>
      by_cases hs : (text s).isEmptyText = true
      · rw [List.filter_cons_of_neg (by simp [hs])]
        exact ih
      · rw [List.filter_cons_of_pos (by simp [hs])]
        exact ih
    | node kind children =>
      rw [List.filter_cons_of_pos rfl, kindsOf_node, kindsOf_node, ih]

theorem kindsOf_tidyTexts (kind : SpanKind) (rs : List Range) :
    kindsOf (tidyTexts kind rs) = kindsOf rs := by
  obtain ⟨rs', hframes, heq⟩ := tidyTexts_eq_filter kind rs
  rw [heq, kindsOf_filter, kindsOf_eq_of_frames hframes]

theorem kindsOf_consJoined (r : Range) (rs : List Range) :
    kindsOf (consJoined r rs) = kindsOf [r] ++ kindsOf rs := by
  unfold consJoined
  split
  · rfl
  · exact kindsOf_append [r] rs

theorem kindsOf_eq_nil (h : ∀ r ∈ rs, SpanKind.rawScript.admits r.kind? = true) :
    kindsOf rs = [] ∧ filledKindsOf rs = [] := by
  have hspans : spansOf rs = [] := by
    induction rs with
    | nil => rfl
    | cons r rs ih =>
      obtain ⟨hr, hrs⟩ := List.forall_mem_cons.mp h
      cases r with
      | text s => exact ih hrs
      | node kind children => cases hr
  simp [kindsOf, filledKindsOf, hspans]

/-- Tidying drops the inline spans that are hollow, and no others. -/
def Sifted (r : Range) : Prop :=
  (kindsOf r.tidy.toList).filter SpanKind.isInline =
    (filledKindsOf [r]).filter SpanKind.isInline

theorem filter_kindsOf_tidyAll (h : ∀ r ∈ rs, r.Sifted) :
    (kindsOf (tidyAll rs)).filter SpanKind.isInline =
      (filledKindsOf rs).filter SpanKind.isInline := by
  induction rs with
  | nil => rfl
  | cons r rs ih =>
    obtain ⟨hr, hrs⟩ := List.forall_mem_cons.mp h
    rw [filledKindsOf_cons, List.filter_append, ← hr, ← ih hrs, tidyAll]
    split
    · rename_i kept hkept
      rw [kindsOf_consJoined, List.filter_append, hkept, Option.toList_some]
    · rename_i hnone
      rw [hnone]
      rfl

theorem exists_left (hadmits : ∀ r ∈ children, kind.admits r.kind? = true)
    (hsifted : ∀ r ∈ children, r.Sifted) :
    ∃ left, ((node kind children).tidy = some (node kind left) ∨
        (node kind children).tidy = none ∧ left = []) ∧
      (kindsOf left).filter SpanKind.isInline =
        (filledKindsOf children).filter SpanKind.isInline := by
  rw [tidy]
  split
  · rename_i hsingle
    rw [eq_nil_of_isSingle hsingle hadmits]
    exact ⟨[], .inl rfl, rfl⟩
  · split
    · rename_i hraw
      rw [hraw] at hadmits
      rw [(kindsOf_eq_nil hadmits).2]
      dsimp only
      split
      · exact ⟨[], .inr ⟨rfl, rfl⟩, rfl⟩
      · exact ⟨_, .inl rfl, rfl⟩
    · refine ⟨tidyTexts kind (tidyAll children), ?_, ?_⟩
      · dsimp only
        split
        · rename_i hempty
          exact .inr ⟨rfl, by simp_all⟩
        · exact .inl rfl
      · rw [kindsOf_tidyTexts]
        exact filter_kindsOf_tidyAll hsifted

theorem WellNested.tidy_eq_none_iff (h : (Range.node kind children).WellNested)
    (hk : kind.isInline = true) :
    (Range.node kind children).tidy = none ↔ (Range.node kind children).isHollow = true := by
  have hinline :
      ∀ kind', (Range.node kind children).kind? = some kind' → kind'.isInline = true := by
    rintro _ ⟨⟩
    exact hk
  rw [h.isHollow_iff hinline]
  constructor
  · intro hnone kept hkept
    rw [hnone] at hkept
    cases hkept
  · intro hempty
    cases hkept : (Range.node kind children).tidy with
    | none => rfl
    | some kept =>
      have hkind := kind?_tidy hkept
      have htext := hempty kept hkept
      cases kept with
      | text s => cases hkind
      | node kind' left => cases htext

theorem WellNested.sifted (h : r.WellNested) : r.Sifted := by
  induction h with
  | text s => rfl
  | @node kind children admitted inner ih =>
    have hnested : (Range.node kind children).WellNested := .node admitted inner
    obtain ⟨left, hleft, hkinds⟩ := exists_left admitted ih
    rw [Sifted, filledKindsOf_node, List.filter_append, ← hkinds]
    -- Whether the span itself is kept matters only if it is inline.
    cases hk : kind.isInline with
    | false =>
      rcases hleft with hleft | ⟨hleft, rfl⟩
      · rw [hleft]
        split <;> simp [hk]
      · rw [hleft]
        split <;> simp [hk]
    | true =>
      have hdropped := hnested.tidy_eq_none_iff hk
      rcases hleft with hleft | ⟨hleft, rfl⟩
      · rw [hleft] at hdropped ⊢
        simp [hk, ← hdropped]
      · rw [if_pos (hdropped.mp hleft), hleft]
        rfl

end Range

end Fabula
