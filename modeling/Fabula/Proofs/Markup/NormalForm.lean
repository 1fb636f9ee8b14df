import Fabula.Proofs.Markup.Tidiness
import Mathlib

namespace Fabula

namespace Text

variable {cs : List Char} {s : String}

def SingleSpaced (cs : List Char) : Prop :=
  (∀ c ∈ cs, isBlank c = true → c = ' ') ∧ cs.IsChain fun a b => isBlank a = false ∨
    isBlank b = false

def startsBlank (s : String) : Bool := s.toList.head?.any isBlank

def endsBlank (s : String) : Bool := s.toList.getLast?.any isBlank

namespace SingleSpaced

theorem cons {c : Char} (hc : isBlank c = true → c = ' ')
    (hnext : isBlank c = false ∨ cs.head?.any isBlank = false) (h : SingleSpaced cs) :
    SingleSpaced (c :: cs) := by
  refine ⟨List.forall_mem_cons.mpr ⟨hc, h.1⟩, h.2.cons ?_⟩
  intro d hd
  rw [Option.mem_def.mp hd] at hnext
  exact hnext

theorem of_isInfix {part : List Char} (h : SingleSpaced cs) (hp : part <:+: cs) :
    SingleSpaced part :=
  ⟨fun c hc => h.1 c (hp.subset hc), List.IsChain.infix h.2 hp⟩

end SingleSpaced

theorem singleSpaced_collapseFrom (inRun : Bool) (cs : List Char) :
    SingleSpaced (collapseFrom inRun cs) ∧
      (inRun = true → (collapseFrom inRun cs).head?.any isBlank = false) := by
  -- Inside a run the next character that is kept is no blank.
  induction cs generalizing inRun with
  | nil => exact ⟨⟨by simp [collapseFrom], .nil⟩, fun _ => rfl⟩
  | cons c cs ih =>
    rw [collapseFrom]
    split
    · split
      · rename_i hrun
        rw [hrun]
        exact ih true
      · rename_i hrun
        obtain ⟨hspaced, hhead⟩ := ih true
        exact ⟨hspaced.cons (fun _ => rfl) (.inr (hhead rfl)), fun h => absurd h hrun⟩
    · rename_i hc
      have hc' : isBlank c = false := by simpa using hc
      exact ⟨(ih false).1.cons (fun h => absurd h hc) (.inl hc'), fun _ => hc'⟩

theorem collapseFrom_eq_self {inRun : Bool} (h : SingleSpaced cs)
    (hrun : inRun = true → cs.head?.any isBlank = false) : collapseFrom inRun cs = cs := by
  induction cs generalizing inRun with
  | nil => rfl
  | cons c cs ih =>
    have hcs : SingleSpaced cs := h.of_isInfix (List.suffix_cons c cs).isInfix
    rw [collapseFrom]
    split
    · rename_i hc
      have hfresh : inRun = false := by
        cases inRun with
        | false => rfl
        | true => simp [hc] at hrun
      have hnext : cs.head?.any isBlank = false := by
        cases cs with
        | nil => rfl
        | cons d cs => simpa [hc] using (List.isChain_cons_cons.mp h.2).1
      rw [hfresh, if_neg Bool.false_ne_true, ih hcs fun _ => hnext, h.1 c List.mem_cons_self hc]
    · rw [ih hcs (by simp)]

theorem singleSpaced_collapse (s : String) : SingleSpaced (collapse s).toList := by
  rw [collapse, String.toList_ofList]
  exact (singleSpaced_collapseFrom false s.toList).1

theorem collapse_eq_self (h : SingleSpaced s.toList) : collapse s = s := by
  rw [collapse, collapseFrom_eq_self h (by simp), String.ofList_toList]

theorem toList_trimStart (s : String) : (trimStart s).toList = s.toList.dropWhile isBlank := by
  simp [trimStart, dropBlank]

theorem toList_trimEnd (s : String) : (trimEnd s).toList = s.toList.rdropWhile isBlank := by
  simp [trimEnd, dropBlankEnd, List.rdropWhile]

theorem startsBlank_eq_false :
    startsBlank s = false ↔ s.toList.dropWhile isBlank = s.toList := by
  rw [startsBlank, List.dropWhile_eq_self_iff]
  cases s.toList <;> simp

theorem endsBlank_eq_false : endsBlank s = false ↔ s.toList.rdropWhile isBlank = s.toList := by
  rw [endsBlank, List.rdropWhile_eq_self_iff]
  cases hs : s.toList with
  | nil => simp
  | cons c cs => simp [List.getLast?_eq_some_getLast]

theorem startsBlank_trimStart (s : String) : startsBlank (trimStart s) = false := by
  rw [startsBlank_eq_false, toList_trimStart, List.dropWhile_idempotent]

theorem endsBlank_trimEnd (s : String) : endsBlank (trimEnd s) = false := by
  rw [endsBlank_eq_false, toList_trimEnd, List.rdropWhile_idempotent]

theorem trimStart_eq_self (h : startsBlank s = false) : trimStart s = s := by
  rw [← String.toList_inj, toList_trimStart, startsBlank_eq_false.mp h]

theorem trimEnd_eq_self (h : endsBlank s = false) : trimEnd s = s := by
  rw [← String.toList_inj, toList_trimEnd, endsBlank_eq_false.mp h]

theorem trimStart_suffix (s : String) : (trimStart s).toList <:+ s.toList := by
  rw [toList_trimStart]
  exact List.dropWhile_suffix isBlank

theorem trimEnd_prefix (s : String) : (trimEnd s).toList <+: s.toList := by
  rw [toList_trimEnd]
  exact List.rdropWhile_prefix isBlank s.toList

/-- What is left of a text still ends as the text does. -/
theorem endsBlank_trimStart (h : endsBlank s = false) : endsBlank (trimStart s) = false := by
  obtain ⟨front, hfront⟩ := trimStart_suffix s
  rw [endsBlank, ← hfront, List.getLast?_append] at h
  rw [endsBlank]
  cases hlast : (trimStart s).toList.getLast? with
  | none => rfl
  | some c => simpa [hlast] using h

theorem startsBlank_trimEnd (h : startsBlank s = false) : startsBlank (trimEnd s) = false := by
  obtain ⟨rest, hrest⟩ := trimEnd_prefix s
  rw [startsBlank, ← hrest, List.head?_append] at h
  rw [startsBlank]
  cases hhead : (trimEnd s).toList.head? with
  | none => rfl
  | some c => simpa [hhead] using h

end Text

namespace Range

variable {kind : SpanKind} {a b b' r : Range} {rs rs' children : List Range} {s : String}

/-- The texts directly in a span are filled, joined, single spaced and trimmed, and only the
document may be empty. -/
structure Smooth (kind : SpanKind) (children : List Range) : Prop where
  filled : ∀ s, text s ∈ children → s ≠ ""
  apart : ∀ front rest s t, children ≠ front ++ text s :: text t :: rest
  spaced : ∀ s, text s ∈ children → Text.SingleSpaced s.toList
  breaks : ∀ front rest s inner, children = front ++ text s :: node .lineBreak inner :: rest →
    Text.endsBlank s = false
  kept : kind = .document ∨ children ≠ []
  first : kind.isParagraphLike = true → ∀ s rest, children = text s :: rest →
    Text.startsBlank s = false
  last : kind.isParagraphLike = true → ∀ front s, children = front ++ [text s] →
    Text.endsBlank s = false

/-- A range in which tidying finds nothing to do. What a text must be like depends on where it
stands. -/
inductive Normal : Range → Prop where
  | text (s : String) : Normal (.text s)
  | single {kind : SpanKind} (single : kind.isSingle = true) : Normal (.node kind [])
  | script {source : String} (filled : Text.isBlankText source = false) :
      Normal (.node .rawScript [.text source])
  | span {kind : SpanKind} {children : List Range} (holding : kind.isSingle = false)
      (marked : kind ≠ .rawScript) (smooth : Smooth kind children)
        (inner : ∀ r ∈ children, Normal r) :
      Normal (.node kind children)

/-- The second range may follow the first: not both are texts, and a text before a line break is
trimmed. -/
def Adjoins (a b : Range) : Prop :=
  ∀ s, a = text s → b.text? = none ∧ (b.kind? = some .lineBreak → Text.endsBlank s = false)

theorem Adjoins.of_node {children : List Range} : Adjoins (node kind children) b := by
  intro s hs
  cases hs

theorem Adjoins.of_frame (hf : b'.frame? = b.frame?) (h : Adjoins a b) : Adjoins a b' := by
  intro s hs
  have hb := h s hs
  cases b with
  | text t => cases hb.1
  | node kind children =>
    cases b' with
    | text t => cases hf
    | node kind' children' =>
      cases hf
      exact hb

theorem exists_head?_of_frames (h : rs'.map frame? = rs.map frame?) :
    ∀ r' ∈ rs'.head?, ∃ r ∈ rs.head?, r'.frame? = r.frame? := by
  cases rs' with
  | nil => simp
  | cons r' rs' =>
    cases rs with
    | nil => cases h
    | cons r rs => simpa using (List.cons.inj h).1

theorem adjoins_trimBeforeBreaks (h : Apart (rs.map text?)) :
    (trimBeforeBreaks rs).IsChain Adjoins := by
  induction rs with
  | nil => exact .nil
  | cons r rs ih =>
    have hrs := ih h.tail
    cases r with
    | node kind children => exact hrs.cons fun b _ => .of_node
    | text s =>
      rw [trimBeforeBreaks]
      cases rs with
      | nil => exact .singleton _
      | cons next rs =>
        -- What follows a text is a span, and that comes through unchanged.
        cases next with
        | text t => simp [Apart, text?] at h
        | node kind children =>
          apply hrs.cons
          intro b hb
          cases hb
          rintro t ht
          cases ht
          refine ⟨rfl, ?_⟩
          intro hk
          cases hk
          exact Text.endsBlank_trimEnd s

theorem adjoins_trimFirst (h : rs.IsChain Adjoins) : (trimFirst rs).IsChain Adjoins := by
  unfold trimFirst
  split
  · rename_i s rest
    obtain ⟨hnext, hrest⟩ := List.isChain_cons.mp h
    apply hrest.cons
    rintro b hb t ⟨⟩
    obtain ⟨htext, hbreak⟩ := hnext b hb s rfl
    exact ⟨htext, fun hk => Text.endsBlank_trimStart (hbreak hk)⟩
  · exact h

theorem adjoins_trimLast (h : rs.IsChain Adjoins) : (trimLast rs).IsChain Adjoins := by
  fun_induction trimLast rs with
  | case1 => exact h
  | case2 s => exact .singleton _
  | case3 r rest _ ih =>
    obtain ⟨hnext, hrest⟩ := List.isChain_cons.mp h
    apply (ih hrest).cons
    intro b hb
    obtain ⟨b₀, hb₀, hframe⟩ := exists_head?_of_frames (frame?_trimLast rest) b hb
    exact (hnext b₀ hb₀).of_frame hframe

/-- What follows a text is a span, so dropping empty texts brings nothing to the start that is a
text. -/
theorem head?_filter (h : rs.IsChain Adjoins)
    (hs : (rs.filter (!·.isEmptyText)).head? = some (text s)) : rs.head? = some (text s) := by
  cases rs with
  | nil => cases hs
  | cons r rs =>
    cases hr : r.isEmptyText with
    | false =>
      rw [List.filter_cons_of_pos (by simp [hr])] at hs
      exact hs
    | true =>
      rw [List.filter_cons_of_neg (by simp [hr])] at hs
      cases r with
      | node kind children => cases hr
      | text t =>
        cases rs with
        | nil => cases hs
        | cons next rs =>
          obtain ⟨hnext, -⟩ := (List.isChain_cons_cons.mp h).1 t rfl
          cases next with
          | text t' => cases hnext
          | node kind children => cases hs

theorem adjoins_filter (h : rs.IsChain Adjoins) :
    (rs.filter (!·.isEmptyText)).IsChain Adjoins := by
  induction rs with
  | nil => exact h
  | cons r rs ih =>
    obtain ⟨hnext, hrs⟩ := List.isChain_cons.mp h
    cases hr : r.isEmptyText with
    | true =>
      rw [List.filter_cons_of_neg (by simp [hr])]
      exact ih hrs
    | false =>
      rw [List.filter_cons_of_pos (by simp [hr])]
      apply (ih hrs).cons
      rintro b hb s rfl
      cases rs with
      | nil => cases hb
      | cons next rs =>
        have hadjoins := hnext next rfl
        cases next with
        | text t => cases (hadjoins s rfl).1
        | node kind children =>
          cases hb
          exact hadjoins s rfl

theorem getLast?_filter (h : rs.IsChain Adjoins)
    (hs : (rs.filter (!·.isEmptyText)).getLast? = some (text s)) :
    rs.getLast? = some (text s) := by
  rcases List.eq_nil_or_concat rs with rfl | ⟨front, r, rfl⟩
  · cases hs
  · rw [List.concat_eq_append, List.filter_append] at hs
    cases hr : r.isEmptyText with
    | false =>
      rw [List.filter_cons_of_pos (by simp [hr])] at hs
      simpa using hs
    | true =>
      cases r with
      | node kind children => cases hr
      | text t =>
        rw [List.filter_cons_of_neg (by simp [hr]), List.filter_nil, List.append_nil] at hs
        rcases List.eq_nil_or_concat front with rfl | ⟨front, before, rfl⟩
        · cases hs
        · -- What stands before a text is a span, and that is kept.
          rw [List.concat_eq_append, List.concat_eq_append, List.append_assoc] at h
          cases before with
          | text t' =>
            have hadjoins := List.isChain_append.mp h
            simp [Adjoins, text?] at hadjoins
          | node kind children => simp [List.filter_append, isEmptyText] at hs

def Spaced (rs : List Range) : Prop := ∀ s, text s ∈ rs → Text.SingleSpaced s.toList

theorem Spaced.cons_text {part : String} (hp : part.toList <:+: s.toList)
    (hs : Text.SingleSpaced s.toList) (h : Spaced rs) : Spaced (text part :: rs) := by
  intro t ht
  rcases List.mem_cons.mp ht with heq | ht
  · cases heq
    exact hs.of_isInfix hp
  · exact h t ht

theorem Spaced.of_cons (h : Spaced (r :: rs)) : Spaced rs :=
  fun s hs => h s (List.mem_cons_of_mem _ hs)

theorem Spaced.cons_node {children : List Range} (h : Spaced rs) :
    Spaced (node kind children :: rs) := by
  intro s hs
  exact h s ((List.mem_cons.mp hs).resolve_left (by simp))

theorem spaced_collapseTexts (rs : List Range) : Spaced (collapseTexts rs) := by
  induction rs with
  | nil => simp [Spaced, collapseTexts]
  | cons r rs ih =>
    cases r with
    | text s => exact .cons_text (List.infix_refl _) (Text.singleSpaced_collapse s) ih
    | node kind children => exact .cons_node ih

theorem Spaced.trimBeforeBreaks (h : Spaced rs) : Spaced (trimBeforeBreaks rs) := by
  induction rs with
  | nil => exact h
  | cons r rs ih =>
    have hrs := ih h.of_cons
    cases r with
    | node kind children => exact hrs.cons_node
    | text s =>
      rw [Range.trimBeforeBreaks]
      apply hrs.cons_text _ (h s List.mem_cons_self)
      split
      · exact (Text.trimEnd_prefix s).isInfix
      · exact List.infix_refl _

theorem Spaced.trimFirst (h : Spaced rs) : Spaced (trimFirst rs) := by
  unfold Range.trimFirst
  split
  · rename_i s rest
    exact h.of_cons.cons_text (Text.trimStart_suffix s).isInfix (h s List.mem_cons_self)
  · exact h

theorem Spaced.trimLast (h : Spaced rs) : Spaced (trimLast rs) := by
  fun_induction Range.trimLast rs with
  | case1 => exact h
  | case2 s =>
    exact h.of_cons.cons_text (Text.trimEnd_prefix s).isInfix (h s List.mem_cons_self)
  | case3 r rest _ ih =>
    cases r with
    | text s => exact (ih h.of_cons).cons_text (List.infix_refl _) (h s List.mem_cons_self)
    | node kind children => exact (ih h.of_cons).cons_node

theorem startsBlank_trimFirst (hs : (trimFirst rs).head? = some (text s)) :
    Text.startsBlank s = false := by
  unfold trimFirst at hs
  split at hs
  · cases hs
    exact Text.startsBlank_trimStart _
  · rename_i hne
    cases rs with
    | nil => cases hs
    | cons r rs =>
      cases hs
      exact (hne s rs rfl).elim

/-- Trimming the last text leaves the start of the first as it is. -/
theorem startsBlank_trimLast (h : ∀ s, rs.head? = some (text s) → Text.startsBlank s = false)
    (hs : (trimLast rs).head? = some (text s)) : Text.startsBlank s = false := by
  unfold trimLast at hs
  split at hs
  · cases hs
  · cases hs
    exact Text.startsBlank_trimEnd (h _ rfl)
  · exact h s hs

theorem endsBlank_trimLast (hs : (trimLast rs).getLast? = some (text s)) :
    Text.endsBlank s = false := by
  fun_induction trimLast rs with
  | case1 => cases hs
  | case2 t =>
    cases hs
    exact Text.endsBlank_trimEnd t
  | case3 r rest hne ih =>
    cases rest with
    | nil =>
      cases hs
      exact (hne s rfl rfl).elim
    | cons next rest =>
      cases htrimmed : trimLast (next :: rest) with
      | nil =>
        have hframes := frame?_trimLast (next :: rest)
        rw [htrimmed] at hframes
        cases hframes
      | cons next' rest' =>
        rw [htrimmed] at hs ih
        rw [List.getLast?_cons_cons] at hs
        exact ih hs

/-- The texts directly in a span are joined, single spaced and trimmed. -/
structure Trimmed (kind : SpanKind) (rs : List Range) : Prop where
  chain : rs.IsChain Adjoins
  spaced : Spaced rs
  first : kind.isParagraphLike = true → ∀ s, rs.head? = some (text s) →
    Text.startsBlank s = false
  last : kind.isParagraphLike = true → ∀ s, rs.getLast? = some (text s) →
    Text.endsBlank s = false

theorem smooth_iff : Smooth kind children ↔
    Trimmed kind children ∧ (∀ r ∈ children, r.text? ≠ some "") ∧
      (kind = .document ∨ children ≠ []) := by
  have htext (r : Range) (s : String) : r.text? = some s ↔ r = text s := by
    cases r <;> simp [text?]
  have hbreak (r : Range) : r.kind? = some .lineBreak ↔ ∃ inner, r = node .lineBreak inner := by
    cases r <;> simp [kind?]
  constructor
  · intro h
    refine ⟨⟨?_, h.spaced, ?_, ?_⟩, ?_, h.kept⟩
    · rw [List.isChain_iff_forall_rel_of_append_cons_cons]
      rintro _ b front rest hchildren s rfl
      constructor
      · cases b with
        | text t => exact (h.apart front rest s t hchildren).elim
        | node kind inner => rfl
      · intro hb
        obtain ⟨inner, rfl⟩ := (hbreak b).mp hb
        exact h.breaks front rest s inner hchildren
    · intro hk s hs
      obtain ⟨rest, hrest⟩ := List.head?_eq_some_iff.mp hs
      exact h.first hk s rest hrest
    · intro hk s hs
      obtain ⟨front, hfront⟩ := List.getLast?_eq_some_iff.mp hs
      exact h.last hk front s hfront
    · intro r hr hempty
      rw [(htext r "").mp hempty] at hr
      exact h.filled "" hr rfl
  · rintro ⟨htrimmed, hfilled, hkept⟩
    have hchain := List.isChain_iff_forall_rel_of_append_cons_cons.mp htrimmed.chain
    refine ⟨?_, ?_, htrimmed.spaced, ?_, hkept, ?_, ?_⟩
    · rintro s hs rfl
      exact hfilled _ hs rfl
    · intro front rest s t hchildren
      cases (hchain hchildren s rfl).1
    · intro front rest s inner hchildren
      exact (hchain hchildren s rfl).2 rfl
    · rintro hk s rest rfl
      exact htrimmed.first hk s rfl
    · rintro hk front s rfl
      exact htrimmed.last hk s List.getLast?_concat

namespace Trimmed

theorem edges (hchain : rs.IsChain Adjoins) (hspaced : Spaced rs) :
    Trimmed kind (if kind.isParagraphLike then trimLast (trimFirst rs) else rs) := by
  split
  · exact ⟨adjoins_trimLast (adjoins_trimFirst hchain), hspaced.trimFirst.trimLast,
      fun _ _ => startsBlank_trimLast fun _ => startsBlank_trimFirst,
      fun _ _ => endsBlank_trimLast⟩
  · rename_i hk
    exact ⟨hchain, hspaced, fun h => absurd h hk, fun h => absurd h hk⟩

theorem filter (h : Trimmed kind rs) : Trimmed kind (rs.filter (!·.isEmptyText)) where
  chain := adjoins_filter h.chain
  spaced s hs := h.spaced s (List.mem_filter.mp hs).1
  first hk s hs := h.first hk s (head?_filter h.chain hs)
  last hk s hs := h.last hk s (getLast?_filter h.chain hs)

end Trimmed

/-- Ranges whose texts are apart come out as a normal form has them. -/
theorem trimmed_tidyTexts (h : Apart (rs.map text?)) : Trimmed kind (tidyTexts kind rs) := by
  have hchain : (trimBeforeBreaks (collapseTexts rs)).IsChain Adjoins := by
    apply adjoins_trimBeforeBreaks
    apply h.of_isSome
    rw [isSome_text?, isSome_text?, frame?_collapseTexts]
  exact (Trimmed.edges hchain (spaced_collapseTexts rs).trimBeforeBreaks).filter

theorem normal_consJoined (hr : r.Normal) (h : ∀ r ∈ rs, r.Normal) :
    ∀ r' ∈ consJoined r rs, r'.Normal := by
  unfold consJoined
  split
  · rename_i s t rest
    exact List.forall_mem_cons.mpr
      ⟨.text (s ++ t), fun r' hr' => h r' (List.mem_cons_of_mem _ hr')⟩
  · exact List.forall_mem_cons.mpr ⟨hr, h⟩

theorem normal_tidyTexts (h : ∀ r ∈ rs, r.Normal) : ∀ r ∈ tidyTexts kind rs, r.Normal := by
  intro r hr
  obtain ⟨r', hr', hframe⟩ := exists_frame_of_tidyTexts hr
  cases r with
  | text s => exact .text s
  | node kind' children =>
    cases r' with
    | text t => cases hframe
    | node kind'' children' =>
      cases hframe
      exact h _ hr'

mutual

theorem normal_of_tidy (r : Range) {kept : Range} (h : r.tidy = some kept) : kept.Normal := by
  cases r with
  | text s =>
    cases h
    exact .text s
  | node kind children =>
    rw [tidy] at h
    split at h
    · rename_i hsingle
      cases h
      exact .single hsingle
    · rename_i hholding
      split at h
      · rename_i hraw
        cases hraw
        dsimp only at h
        split at h
        · cases h
        · rename_i hfilled
          cases h
          exact .script (by simpa using hfilled)
      · rename_i hmarked
        dsimp only at h
        split at h
        · cases h
        · rename_i hkept
          cases h
          refine .span (by simpa using hholding) hmarked ?_ ?_
          · refine smooth_iff.mpr
              ⟨trimmed_tidyTexts (apart_tidyAll children), filled_tidyTexts, ?_⟩
            simp at hkept
            tauto
          · exact normal_tidyTexts (normal_of_tidyAll children)

theorem normal_of_tidyAll (rs : List Range) : ∀ r ∈ tidyAll rs, r.Normal := by
  cases rs with
  | nil => simp [tidyAll]
  | cons r rs =>
    rw [tidyAll]
    split
    · rename_i kept hkept
      exact normal_consJoined (normal_of_tidy r hkept) (normal_of_tidyAll rs)
    · exact normal_of_tidyAll rs

end

theorem collapseTexts_eq_self (h : Spaced rs) : collapseTexts rs = rs := by
  induction rs with
  | nil => rfl
  | cons r rs ih =>
    cases r with
    | text s => rw [collapseTexts, ih h.of_cons, Text.collapse_eq_self (h s List.mem_cons_self)]
    | node kind children => exact congrArg _ (ih h.of_cons)

theorem trimBeforeBreaks_eq_self (h : rs.IsChain Adjoins) : trimBeforeBreaks rs = rs := by
  induction rs with
  | nil => rfl
  | cons r rs ih =>
    obtain ⟨hnext, hrs⟩ := List.isChain_cons.mp h
    cases r with
    | node kind children => exact congrArg _ (ih hrs)
    | text s =>
      rw [trimBeforeBreaks, ih hrs]
      split
      · rename_i hbreak
        unfold startsWithBreak at hbreak
        split at hbreak
        · rw [Text.trimEnd_eq_self ((hnext _ rfl s rfl).2 rfl)]
        · cases hbreak
      · rfl

theorem trimFirst_eq_self (h : ∀ s, rs.head? = some (text s) → Text.startsBlank s = false) :
    trimFirst rs = rs := by
  unfold trimFirst
  split
  · rw [Text.trimStart_eq_self (h _ rfl)]
  · rfl

theorem trimLast_eq_self (h : ∀ s, rs.getLast? = some (text s) → Text.endsBlank s = false) :
    trimLast rs = rs := by
  fun_induction trimLast rs with
  | case1 => rfl
  | case2 s => rw [Text.trimEnd_eq_self (h s rfl)]
  | case3 r rest _ ih =>
    rw [ih]
    intro s hs
    apply h
    rw [List.getLast?_cons, hs]
    rfl

theorem Smooth.tidyTexts_eq_self (h : Smooth kind children) :
    tidyTexts kind children = children := by
  obtain ⟨htrimmed, hfilled, -⟩ := smooth_iff.mp h
  have hedges :
      (if kind.isParagraphLike then trimLast (trimFirst children) else children) =
        children := by
    split
    · rename_i hk
      rw [trimFirst_eq_self (htrimmed.first hk), trimLast_eq_self (htrimmed.last hk)]
    · rfl
  rw [tidyTexts, collapseTexts_eq_self htrimmed.spaced, trimBeforeBreaks_eq_self htrimmed.chain,
    hedges, List.filter_eq_self]
  intro r hr
  simpa [isEmptyText_eq] using hfilled r hr

theorem consJoined_eq_cons (h : (r :: rs).IsChain Adjoins) : consJoined r rs = r :: rs := by
  unfold consJoined
  split
  · cases ((List.isChain_cons_cons.mp h).1 _ rfl).1
  · rfl

theorem tidyAll_eq_self (hc : rs.IsChain Adjoins) (h : ∀ r ∈ rs, r.tidy = some r) :
    tidyAll rs = rs := by
  induction rs with
  | nil => rfl
  | cons r rs ih =>
    obtain ⟨hr, hrs⟩ := List.forall_mem_cons.mp h
    rw [tidyAll, hr, ih (List.isChain_cons.mp hc).2 hrs]
    exact consJoined_eq_cons hc

theorem Normal.tidy_eq_self (h : r.Normal) : r.tidy = some r := by
  induction h with
  | text s => rfl
  | single single => rw [tidy, if_pos single]
  | @script source filled => simp [tidy, SpanKind.isSingle, plainText, filled]
  | @span kind children holding marked smooth inner ih =>
    have hchain := (smooth_iff.mp smooth).1.chain
    rw [tidy, if_neg (by simp [holding]), if_neg marked]
    dsimp only
    rw [tidyAll_eq_self hchain ih, smooth.tidyTexts_eq_self]
    rcases smooth.kept with rfl | hne
    · simp
    · simp [hne]

/-- Tidying brings every tree that it keeps into normal form, leaves trees in normal form as
they are, and so finds nothing to do in what it has tidied. -/
theorem tidy_normalizes :
    (∀ r kept : Range, r.tidy = some kept → kept.Normal) ∧
      (∀ r : Range, r.Normal → r.tidy = some r) ∧
      ∀ r : Range, r.tidy.bind tidy = r.tidy := by
  refine ⟨fun r _ => normal_of_tidy r, fun _ => Normal.tidy_eq_self, ?_⟩
  intro r
  cases h : r.tidy with
  | none => rfl
  | some kept => exact (normal_of_tidy r h).tidy_eq_self

/-- A block whose spans and blanks tidying must drop before its texts can be joined. -/
def ragged : Range :=
  .node .document [.node .paragraph
    [.text " a ", .node .hidden [.node .emphasis [.text ""]], .text "\t b \n",
      .node .lineBreak [.text "c"], .node .rawScript [.text " x", .node .hidden [], .text " "],
      .text " "]]

def smoothed : Range :=
  .node .document [.node .paragraph
    [.text "a b", .node .lineBreak [], .node .rawScript [.text " x "]]]

theorem ragged_normalizes :
    ragged.tidy = some smoothed ∧ smoothed.Normal ∧ smoothed.tidy = some smoothed := by
  have h : ragged.tidy = some smoothed := by rfl
  exact ⟨h, tidy_normalizes.1 _ _ h, tidy_normalizes.2.1 _ (tidy_normalizes.1 _ _ h)⟩

end Range

end Fabula
