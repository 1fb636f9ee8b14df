import Fabula.Markup.Tidy
import Fabula.Proofs.Markup.Nesting

namespace Fabula

/-- Of the texts among some siblings no two follow each other. -/
def Apart (texts : List (Option String)) : Prop :=
  texts.IsChain fun a b => a = none ∨ b = none

namespace Apart

variable {texts texts' : List (Option String)}

theorem of_isSome (h : texts'.map Option.isSome = texts.map Option.isSome) (ha : Apart texts) :
    Apart texts' := by
  have hflags {xs : List (Option String)} : Apart xs ↔
      (xs.map Option.isSome).IsChain fun a b => a = false ∨ b = false := by
    rw [List.isChain_map]
    simp only [Option.isSome_eq_false_iff, Option.isNone_iff_eq_none]
    rfl
  rw [hflags, h, ← hflags]
  exact ha

theorem cons_none (h : Apart texts) : Apart (none :: texts) :=
  List.IsChain.cons h fun _ _ => .inl rfl

theorem tail {text : Option String} (h : Apart (text :: texts)) : Apart texts :=
  List.IsChain.tail h

theorem of_forall_none (h : ∀ text ∈ texts, text = none) : Apart texts := by
  induction texts with
  | nil => exact List.IsChain.nil
  | cons text texts ih =>
    rw [h text List.mem_cons_self]
    exact (ih fun text' ht => h text' (List.mem_cons_of_mem _ ht)).cons_none

/-- Dropping empty texts brings no two others together. -/
theorem filter (h : Apart texts) : Apart (texts.filter (· != some "")) := by
  induction texts with
  | nil => exact h
  | cons text texts ih =>
    have htexts := ih h.tail
    cases text with
    | none => exact htexts.cons_none
    | some s =>
      by_cases hs : s = ""
      · rw [List.filter_cons_of_neg (by simp [hs])]
        exact htexts
      · rw [List.filter_cons_of_pos (by simp [hs])]
        -- What follows a text is none and so it stays.
        cases texts with
        | nil => exact List.IsChain.singleton _
        | cons next texts =>
          have hnext := (List.isChain_cons_cons.mp h).1.resolve_left (by simp)
          rw [hnext] at htexts ⊢
          exact List.isChain_cons_cons.mpr ⟨.inr rfl, htexts⟩

end Apart

namespace Range

variable {r : Range} {rs : List Range} {kind : SpanKind}

def text? : Range → Option String
  | text s => some s
  | node _ _ => none

def frame? : Range → Option (SpanKind × List Range)
  | text _ => none
  | node kind children => some (kind, children)

theorem isEmptyText_eq (r : Range) : r.isEmptyText = (r.text? == some "") := by
  cases r with
  | text s =>
    rw [Bool.eq_iff_iff]
    simp [isEmptyText, text?]
  | node kind children => rfl

inductive Tidied : Range → Prop where
  | text (s : String) : Tidied (.text s)
  | node {kind : SpanKind} {children : List Range}
      (admitted : ∀ r ∈ children, kind.admits r.kind? = true)
      (filled : ∀ r ∈ children, r.text? ≠ some "")
      (apart : Apart (children.map text?))
      (kept : kind = .document ∨ kind.isSingle = true ∨ children ≠ [])
      (inner : ∀ r ∈ children, Tidied r) : Tidied (.node kind children)

/-- A range in normal form that may stand in a span of the kind. -/
def Settled (kind : SpanKind) (r : Range) : Prop := kind.admits r.kind? = true ∧ r.Tidied

theorem Settled.of_frame {r' : Range} (hf : r'.frame? = r.frame?) (h : Settled kind r) :
    Settled kind r' := by
  cases r with
  | text s =>
    cases r' with
    | text t => exact ⟨h.1, .text t⟩
    | node => cases hf
  | node =>
    cases r' with
    | text => cases hf
    | node =>
      cases hf
      exact h

theorem frame?_collapseTexts (rs : List Range) :
    (collapseTexts rs).map frame? = rs.map frame? := by
  fun_induction collapseTexts rs with
  | case1 => rfl
  | case2 s rest ih => simp [ih, frame?]
  | case3 r rest hr ih => simp [ih]

theorem frame?_trimBeforeBreaks (rs : List Range) :
    (trimBeforeBreaks rs).map frame? = rs.map frame? := by
  fun_induction trimBeforeBreaks rs with
  | case1 => rfl
  | case2 s rest ih => simp [ih, frame?]
  | case3 r rest hr ih => simp [ih]

theorem frame?_trimFirst (rs : List Range) : (trimFirst rs).map frame? = rs.map frame? := by
  unfold trimFirst
  split <;> rfl

theorem frame?_trimLast (rs : List Range) : (trimLast rs).map frame? = rs.map frame? := by
  fun_induction trimLast rs with
  | case1 => rfl
  | case2 s => rfl
  | case3 r rest hr ih => simp [ih]

/-- Tidying the texts among siblings only changes wordings and drops what is then empty. -/
theorem tidyTexts_eq_filter (kind : SpanKind) (rs : List Range) :
    ∃ rs' : List Range, rs'.map frame? = rs.map frame? ∧
      tidyTexts kind rs = rs'.filter (!·.isEmptyText) := by
  refine ⟨_, ?_, rfl⟩
  split
  · rw [frame?_trimLast, frame?_trimFirst, frame?_trimBeforeBreaks, frame?_collapseTexts]
  · rw [frame?_trimBeforeBreaks, frame?_collapseTexts]

theorem isSome_text? (rs : List Range) :
    (rs.map text?).map Option.isSome = (rs.map frame?).map Option.isNone := by
  rw [List.map_map, List.map_map]
  apply List.map_congr_left
  intro r _
  cases r <;> rfl

theorem apart_tidyTexts (h : Apart (rs.map text?)) : Apart ((tidyTexts kind rs).map text?) := by
  obtain ⟨rs', hframes, heq⟩ := tidyTexts_eq_filter kind rs
  have hrs' : Apart (rs'.map text?) := by
    apply h.of_isSome
    rw [isSome_text?, isSome_text?, hframes]
  have hfilter := hrs'.filter
  rw [List.filter_map] at hfilter
  rw [heq]
  convert hfilter using 4
  rename_i r
  rw [isEmptyText_eq]
  rfl

theorem exists_frame_of_tidyTexts (h : r ∈ tidyTexts kind rs) :
    ∃ r' ∈ rs, r'.frame? = r.frame? := by
  obtain ⟨rs', hframes, heq⟩ := tidyTexts_eq_filter kind rs
  rw [heq] at h
  have hmem : r.frame? ∈ rs.map frame? := by
    rw [← hframes]
    exact List.mem_map_of_mem (List.mem_filter.mp h).1
  exact List.mem_map.mp hmem

theorem settled_tidyTexts (h : ∀ r ∈ rs, Settled kind r) :
    ∀ r ∈ tidyTexts kind rs, Settled kind r := by
  intro r hr
  obtain ⟨r', hr', hframe⟩ := exists_frame_of_tidyTexts hr
  exact (h r' hr').of_frame hframe.symm

theorem filled_tidyTexts : ∀ r ∈ tidyTexts kind rs, r.text? ≠ some "" := by
  intro r hr
  have hr := (List.mem_filter.mp hr).2
  simpa [isEmptyText_eq] using hr

theorem apart_consJoined (h : Apart (rs.map text?)) : Apart ((consJoined r rs).map text?) := by
  cases r with
  | node kind children => exact h.cons_none
  | text s =>
    cases rs with
    | nil => exact List.IsChain.singleton _
    | cons next rs =>
      cases next with
      | text t =>
        apply h.of_isSome
        rfl
      | node kind children => exact List.isChain_cons_cons.mpr ⟨.inr rfl, h⟩

theorem settled_consJoined (hr : Settled kind r) (h : ∀ r ∈ rs, Settled kind r) :
    ∀ r' ∈ consJoined r rs, Settled kind r' := by
  unfold consJoined
  split
  · intro r' hr'
    rcases List.mem_cons.mp hr' with rfl | hr'
    · apply hr.of_frame
      rfl
    · exact h r' (List.mem_cons_of_mem _ hr')
  · intro r' hr'
    rcases List.mem_cons.mp hr' with rfl | hr'
    · exact hr
    · exact h r' hr'

theorem apart_tidyAll (rs : List Range) : Apart ((tidyAll rs).map text?) := by
  induction rs with
  | nil => exact List.IsChain.nil
  | cons r rs ih =>
    rw [tidyAll]
    split
    · exact apart_consJoined ih
    · exact ih

theorem settled_tidyAll (h : ∀ r ∈ rs, ∀ kept, r.tidy = some kept → Settled kind kept) :
    ∀ r ∈ tidyAll rs, Settled kind r := by
  induction rs with
  | nil =>
    intro r hr
    cases hr
  | cons r rs ih =>
    have hrs := ih fun r' hr' => h r' (List.mem_cons_of_mem _ hr')
    rw [tidyAll]
    split
    · rename_i kept hkept
      exact settled_consJoined (h r List.mem_cons_self kept hkept) hrs
    · exact hrs

theorem kind?_tidy {kept : Range} (h : r.tidy = some kept) : kept.kind? = r.kind? := by
  cases r with
  | text s =>
    cases h
    rfl
  | node kind children =>
    rw [tidy] at h
    split at h
    · cases h
      rfl
    · split at h
      · dsimp only at h
        split at h
        · cases h
        · cases h
          rfl
      · dsimp only at h
        split at h
        · cases h
        · cases h
          rfl

/-- Tidying brings a range in which everything stands where it may into normal form. -/
theorem WellNested.tidied (h : r.WellNested) : ∀ kept, r.tidy = some kept → kept.Tidied := by
  induction h with
  | text s =>
    rintro _ ⟨⟩
    exact .text s
  | @node kind children admitted inner ih =>
    intro kept hkept
    rw [tidy] at hkept
    split at hkept
    · rename_i hsingle
      cases hkept
      exact .node (by simp) (by simp) .nil (.inr (.inl hsingle)) (by simp)
    · split at hkept
      · rename_i hraw
        dsimp only at hkept
        split at hkept
        · cases hkept
        · rename_i hblank
          cases hkept
          cases hraw
          refine .node ?_ ?_ (.singleton _) (.inr (.inr (by simp))) ?_
          · simp [SpanKind.admits, kind?]
          · intro r hr hempty
            rw [List.mem_singleton.mp hr, text?, Option.some.injEq] at hempty
            rw [hempty] at hblank
            exact hblank rfl
          · intro r hr
            rw [List.mem_singleton.mp hr]
            exact .text _
      · dsimp only at hkept
        have hsettled : ∀ r ∈ tidyTexts kind (tidyAll children), Settled kind r := by
          apply settled_tidyTexts
          apply settled_tidyAll
          intro r hr kept hkept
          exact ⟨kind?_tidy hkept ▸ admitted r hr, ih r hr kept hkept⟩
        split at hkept
        · cases hkept
        · rename_i hempty
          cases hkept
          refine .node (fun r hr => (hsettled r hr).1) filled_tidyTexts
            (apart_tidyTexts (apart_tidyAll children)) ?_ fun r hr => (hsettled r hr).2
          by_cases hdoc : kind = .document
          · exact .inl hdoc
          · refine .inr (.inr ?_)
            intro hnil
            simp [hnil, hdoc] at hempty

end Range

end Fabula
