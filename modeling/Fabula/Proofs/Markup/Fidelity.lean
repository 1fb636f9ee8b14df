import Fabula.Proofs.Markup.Leaves
import Fabula.Proofs.Markup.Scanning

namespace Fabula

theorem SpanKind.isSingle_of_admits_text {kind : SpanKind} (h : kind.admits none = true) :
    kind.isSingle = false := by
  revert h
  cases kind <;> decide

namespace Role

def style? : Role → Option SpanKind
  | style kind => some kind
  | _ => none

def block? : Role → Option SpanKind
  | paragraph kind _ => some kind
  | block kind => some kind
  | _ => none

end Role

namespace Feature

def style? : Feature → Option SpanKind
  | emphasis => some .emphasis
  | strongEmphasis => some .strongEmphasis
  | _ => none

def block? : Feature → Option SpanKind
  | paragraphBreak => some .paragraph
  | horizontalRule => some .paragraph
  | quotation => some .quotation
  | attribution => some .attribution
  | heading => some .heading
  | _ => none

/-- The spans that a closer can end, the one that it prefers first. -/
def closes : Feature → List SpanKind
  | insertClose => [.insert, .hidden]
  | conditionalClose => [.conditional, .hidden]
  | hiddenClose => [.hidden]
  | rawClose => [.rawScript]
  | _ => []

theorem style?_eq (feature : Feature) : feature.style? = feature.role.style? := by
  cases feature <;> rfl

theorem block?_eq (feature : Feature) : feature.block? = feature.role.block? := by
  cases feature <;> rfl

/-- The kind of paragraph after some markers: the one that was set last, at first a plain
paragraph. -/
def blockAfter (acted : List Feature) : SpanKind :=
  (acted.filterMap block?).getLast?.getD .paragraph

variable {feature feature' : Feature} {kind kind' : SpanKind} {acted : List Feature}

theorem blockAfter_append (acted : List Feature) (feature : Feature) :
    blockAfter (acted ++ [feature]) = feature.block?.getD (blockAfter acted) := by
  unfold blockAfter
  cases h : feature.block? <;> simp [h]

theorem isParagraphLike_of_block? (h : feature.block? = some kind) :
    kind.isParagraphLike = true := by
  cases feature <;> cases h <;> rfl

theorem isParagraphLike_blockAfter (acted : List Feature) :
    (blockAfter acted).isParagraphLike = true := by
  induction acted using List.reverseRecOn with
  | nil => rfl
  | append_singleton acted feature ih =>
    rw [blockAfter_append]
    cases hblock : feature.block? with
    | none => exact ih
    | some kind => exact isParagraphLike_of_block? hblock

theorem block?_of_style? (h : feature.style? = some kind) : feature.block? = none := by
  cases feature <;> cases h <;> rfl

theorem isStyle_of_style? (h : feature.style? = some kind) : kind.isStyle = true := by
  cases feature <;> cases h <;> rfl

theorem style?_inj (h : feature.style? = some kind) (h' : feature'.style? = some kind) :
    feature = feature' := by
  cases feature <;> cases h <;> cases feature' <;> cases h' <;> rfl

end Feature

/-- The spans around a leaf are as the markers before it say. -/
structure Obeys (acted : List Feature) (path : List SpanKind) : Prop where
  /-- The outermost span is the paragraph, and no other is one. -/
  block : ∃ inner, path = inner ++ [Feature.blockAfter acted] ∧
    ∀ kind ∈ inner, kind.isParagraphLike = false
  isBlock : (Feature.blockAfter acted).isParagraphLike = true
  emphasis : path.count .emphasis = acted.count .emphasis % 2
  strongEmphasis : path.count .strongEmphasis = acted.count .strongEmphasis % 2

/-- A leaf is the one that is left by some token, and stands as the markers before that token
say; a rule stands in the document itself. -/
def Placed.Follows (p : Placed) (piece : List Feature × Leaf) : Prop :=
  p.leaf = piece.2 ∧
    if p.leaf = .single .horizontalRule then p.path = [] else Obeys piece.1 p.path

namespace Resolver

variable {r r' last : Resolver} {t : Token Feature} {tokens : List (Token Feature)}
  {events : List Event}
  {feature : Feature} {kind : SpanKind} {spans : List SpanKind} {acted : List Feature}
  {p : Resolver × List Event}

/-- Whether a marker is taken literally: in raw script anything but its closer, elsewhere
emphasis where only logic can stand, and a closer none of whose spans is open. -/
def takesLiterally (r : Resolver) (feature : Feature) : Bool :=
  if r.inside .rawScript then feature != .rawClose
  else if feature = .emphasis ∨ feature = .strongEmphasis then r.inLogic
  else !feature.closes.isEmpty && !feature.closes.any r.inside

def actingLeaf? (r : Resolver) (feature : Feature) : Option Leaf :=
  match feature with
  | .lineBreak => some (.single .lineBreak)
  | .horizontalRule => some (.single .horizontalRule)
  | _ => if feature.closes.head?.any r.inside then none else feature.sign?.map .text

section Roles

/-- Whether a role is not played outside raw script, its marker being taken literally. -/
def isIdle (r : Resolver) : Role → Bool
  | .style _ => r.inLogic
  | .closer kind first => !r.inside kind && !(first.isSome && r.inside .hidden)
  | _ => false

def leafOf (r : Resolver) : Role → Option Leaf
  | .closer kind first => if r.inside kind then none else first.map .text
  | .leaf kind => some (.single kind)
  | .paragraph _ between => between.map .single
  | _ => none

theorem takesLiterally_eq (hraw : r.inside .rawScript = false) (feature : Feature) :
    r.takesLiterally feature = r.isIdle feature.role := by
  rw [takesLiterally, hraw]
  cases feature <;> simp [Feature.closes, Feature.role, isIdle]

theorem actingLeaf?_eq (feature : Feature) : r.actingLeaf? feature = r.leafOf feature.role := by
  cases feature <;> rfl

end Roles

def leaf? (r : Resolver) (t : Token Feature) : Option Leaf :=
  match t.tag with
  | none => some (.text t.text)
  | some feature =>
    if r.takesLiterally feature then some (.text t.text) else r.actingLeaf? feature

def acting (r : Resolver) (t : Token Feature) : List Feature :=
  match t.tag with
  | none => []
  | some feature => if r.takesLiterally feature then [] else [feature]

/-- The leaves that tokens add one after the other, each with the markers that have acted before
it. -/
def pieces (r : Resolver) (acted : List Feature) :
    List (Token Feature) → List (List Feature × Leaf)
  | [] => []
  | t :: rest =>
    ((r.leaf? t).map (Prod.mk acted)).toList ++
      match r.step t with
      | .ok (next, _) => next.pieces (acted ++ r.acting t) rest
      | .error _ => []

structure Tracks (r : Resolver) (acted : List Feature) : Prop where
  block : r.paragraph = Feature.blockAfter acted
  styles : ∀ feature kind, feature.style? = some kind →
    r.styles.count kind = acted.count feature % 2

namespace Tracks

theorem of_same (h : r.Tracks acted) (hp : r'.paragraph = r.paragraph)
    (hs : r'.styles = r.styles) : r'.Tracks acted :=
  ⟨hp.trans h.block, by rw [hs]; exact h.styles⟩

theorem count_append (h : r.Tracks acted) (hs : feature.style? = none) :
    ∀ feature' kind, feature'.style? = some kind →
      r.styles.count kind = (acted ++ [feature]).count feature' % 2 := by
  intro feature' kind hk
  have hne : feature ≠ feature' := by
    rintro rfl
    cases hs.symm.trans hk
  rw [List.count_append, List.count_singleton, h.styles feature' kind hk]
  simp [hne]

theorem plain (h : r.Tracks acted) (hs : feature.style? = none) (hb : feature.block? = none) :
    r.Tracks (acted ++ [feature]) := by
  refine ⟨?_, h.count_append hs⟩
  rw [Feature.blockAfter_append, hb]
  exact h.block

theorem setBlock (h : r.Tracks acted) (hs : feature.style? = none)
    (hb : feature.block? = some kind) :
    ({ r with paragraph := kind } : Resolver).Tracks (acted ++ [feature]) := by
  refine ⟨?_, h.count_append hs⟩
  rw [Feature.blockAfter_append, hb]
  rfl

theorem toggle (h : r.Tracks acted) (hf : feature.style? = some kind) :
    (r.toggle kind).1.Tracks (acted ++ [feature]) := by
  have hblock : Feature.blockAfter (acted ++ [feature]) = Feature.blockAfter acted := by
    rw [Feature.blockAfter_append, Feature.block?_of_style? hf]
    rfl
  have hparagraph : (r.toggle kind).1.paragraph = r.paragraph := by
    unfold Resolver.toggle
    split <;> rfl
  refine ⟨by rw [hparagraph, hblock, h.block], ?_⟩
  intro feature' kind' hf'
  have hold := h.styles feature' kind' hf'
  rw [List.count_append, List.count_singleton]
  by_cases hkind : kind' = kind
  · subst hkind
    cases Feature.style?_inj hf hf'
    unfold Resolver.toggle
    split
    · rename_i hmem
      have hpos := List.count_pos_iff.mpr (List.contains_iff_mem.mp hmem)
      rw [List.count_erase_self]
      simp
      omega
    · rename_i hmem
      have hzero := List.count_eq_zero.mpr fun hmem' => hmem (List.contains_iff_mem.mpr hmem')
      rw [List.count_cons_self]
      simp
      omega
  · have hfeature : feature ≠ feature' := by
      rintro rfl
      exact hkind (Option.some.inj (hf'.symm.trans hf))
    have hstyles : (r.toggle kind).1.styles.count kind' = r.styles.count kind' := by
      unfold Resolver.toggle
      split
      · exact List.count_erase_of_ne hkind
      · exact List.count_cons_of_ne (Ne.symm hkind)
    rw [hstyles, hold]
    simp [hfeature]

theorem initial : Resolver.initial.Tracks [] :=
  ⟨rfl, by simp [Resolver.initial]⟩

end Tracks

/-- Where a leaf is put: under the open spans, but for a rule, which stands in the document
itself. -/
def place (r : Resolver) (spans : List SpanKind) (leaf : Leaf) : Placed :=
  ⟨if leaf = .single .horizontalRule then [] else spans ++ [r.paragraph], leaf⟩

theorem follows_place (hn : r.Nests spans) (ht : r.Tracks acted) (leaf : Leaf) :
    (r.place spans leaf).Follows (acted, leaf) := by
  refine ⟨rfl, ?_⟩
  unfold place
  dsimp only
  split
  · rfl
  · have hinline : ∀ kind ∈ spans, kind.isParagraphLike = false := by
      intro kind hkind
      have hk : kind.isInline = true := by
        rcases List.mem_append.mp (hn.counted.mem_iff.mp hkind) with hk | hk
        · exact SpanKind.isInline_of_isStyle (hn.styles kind hk)
        · exact SpanKind.isInline_of_isBracket (hn.brackets kind hk)
      revert hk
      cases kind <;> decide
    have hcount {feature : Feature} {kind : SpanKind} (hf : feature.style? = some kind) :
        (spans ++ [r.paragraph]).count kind = acted.count feature % 2 := by
      have hstyle := Feature.isStyle_of_style? hf
      have hbracket : kind ∉ r.brackets := by
        intro hmem
        have hb := hn.brackets kind hmem
        revert hb hstyle
        cases kind <;> decide
      have hparagraph : kind ≠ r.paragraph :=
        hn.ne_paragraph (SpanKind.isInline_of_isStyle hstyle)
      rw [List.count_append, hn.counted.count_eq, List.count_append,
        List.count_eq_zero.mpr hbracket, List.count_singleton, ht.styles feature kind hf]
      simp [hparagraph.symm]
    refine ⟨⟨spans, by rw [ht.block], hinline⟩, Feature.isParagraphLike_blockAfter acted,
      hcount rfl, hcount rfl⟩

/-- What a token does to a resolver under which some spans are open: the leaf that its events
add, and the markers that have acted after it. -/
structure Responds (r : Resolver) (spans : List SpanKind) (p : Resolver × List Event)
    (leaf : Option Leaf) (acted : List Feature) : Prop where
  apt : ∀ e ∈ p.2, e.Apt
  placed : Event.placed (spans ++ [r.paragraph]) p.2 = (leaf.map (r.place spans)).toList
  tracks : p.1.Tracks acted

theorem Responds.of_ok {q : Resolver × List Event} {leaf : Option Leaf}
    (h : r.Responds spans q leaf acted) (hq : (.ok q : Step) = .ok p) :
    r.Responds spans p leaf acted := by
  cases hq
  exact h

theorem responds_text (ht : r.Tracks acted) (spans : List SpanKind) (s : String) :
    r.Responds spans (r.text s) (some (.text s)) acted :=
  ⟨by simp [text, Event.Apt], by simp [text, Event.placed, Event.leaf?, place],
    ht.of_same rfl rfl⟩

theorem responds_enter (ht : r.Tracks acted) (hk : kind.isBracket = true)
    (spans : List SpanKind) (offset : Nat) :
    r.Responds spans (r.enter kind offset) none acted := by
  have hsingle := SpanKind.isSingle_of_admits_text (SpanKind.admits_text_of_isBracket hk)
  exact ⟨by simp [enter, Event.Apt, hsingle], by simp [enter, Event.placed, Event.leaf?],
    ht.of_same rfl rfl⟩

theorem responds_leave (ht : r.Tracks acted) (spans : List SpanKind) (kind : SpanKind) :
    r.Responds spans (r.leave kind) none acted :=
  ⟨by simp [leave, Event.Apt], by simp [leave, Event.placed, Event.leaf?], ht.of_same rfl rfl⟩

theorem responds_toggle (ht : r.Tracks acted) (hf : feature.style? = some kind)
    (spans : List SpanKind) : r.Responds spans (r.toggle kind) none (acted ++ [feature]) := by
  have hsingle := SpanKind.isSingle_of_admits_text
    (SpanKind.admits_text_of_isStyle (Feature.isStyle_of_style? hf))
  refine ⟨?_, ?_, ht.toggle hf⟩
  · unfold toggle
    split <;> simp [Event.Apt, hsingle]
  · unfold toggle
    split <;> simp [Event.placed, Event.leaf?]

theorem responds_style (ht : r.Tracks acted) (hf : feature.style? = some kind)
    (spans : List SpanKind) :
    r.Responds spans (if r.inLogic then r.text t.text else r.toggle kind)
      (if r.inLogic then some (.text t.text) else none)
        (if r.inLogic then acted else acted ++ [feature]) := by
  split
  · exact responds_text ht spans t.text
  · exact responds_toggle ht hf spans

/-- A closer of two characters that ends a hidden span. -/
theorem responds_hidden (ht : r.Tracks acted) (spans : List SpanKind) (s : String) :
    r.Responds spans
      (((r.text s).1.leave .hidden).1, (r.text s).2 ++ ((r.text s).1.leave .hidden).2)
      (some (.text s)) acted := by
  refine ⟨?_, ?_, ht.of_same rfl rfl⟩
  · simp [text, leave, Event.Apt]
  · simp [text, leave, Event.placed, Event.leaf?, place]

theorem placed_eq_nil {kinds : List SpanKind} (h : ∀ e ∈ events, e.leaf? = none) :
    Event.placed kinds events = [] := by
  induction events generalizing kinds with
  | nil => rfl
  | cons e events ih =>
    rw [Event.placed, h e List.mem_cons_self,
      ih fun e' he' => h e' (List.mem_cons_of_mem _ he')]
    rfl

theorem apt_newParagraph (hn : r.Nests spans) (hk : kind.isParagraphLike = true)
    {between : Option SpanKind} (hbetween : ∀ leaf ∈ between, leaf = .horizontalRule) :
    ∀ e ∈ r.styles.map Event.stop ++ Event.stop r.paragraph ::
        between.toList.map Event.single ++ Event.start kind :: r.styles.reverse.map Event.start,
      e.Apt := by
  intro e he
  simp only [List.mem_append, List.mem_cons, List.mem_map, List.mem_reverse,
    Option.mem_toList] at he
  rcases he with (⟨style, -, rfl⟩ | rfl | ⟨leaf, hleaf, rfl⟩) | rfl | ⟨style, hstyle, rfl⟩
  · trivial
  · trivial
  · rw [hbetween leaf hleaf]
    rfl
  · exact SpanKind.isSingle_of_admits_text (SpanKind.admits_text_of_isParagraphLike hk)
  · exact SpanKind.isSingle_of_admits_text
      (SpanKind.admits_text_of_isStyle (hn.styles style hstyle))

/-- With all spans of the old paragraph closed, what stands between the two paragraphs is in no
span. -/
theorem placed_newParagraph (hn : r.Nests spans) (hopened : r.opened = [])
    {between : Option SpanKind} (hbetween : ∀ leaf ∈ between, leaf = .horizontalRule) :
    Event.placed (spans ++ [r.paragraph]) (r.styles.map Event.stop ++ Event.stop r.paragraph ::
      between.toList.map Event.single ++ Event.start kind :: r.styles.reverse.map Event.start) =
        ((between.map Leaf.single).map (r.place spans)).toList := by
  have hfront : Event.placed (spans ++ [r.paragraph])
      (r.styles.map Event.stop ++ [Event.stop r.paragraph]) = [] := by
    apply placed_eq_nil
    simp [Event.leaf?, or_imp, forall_and]
  have hback (kinds : List SpanKind) :
      Event.placed kinds (Event.start kind :: r.styles.reverse.map Event.start) = [] := by
    apply placed_eq_nil
    simp [Event.leaf?]
  have hsplit :
      r.styles.map Event.stop ++ Event.stop r.paragraph :: between.toList.map Event.single ++
      Event.start kind :: r.styles.reverse.map Event.start =
        (r.styles.map Event.stop ++ [Event.stop r.paragraph]) ++
          (between.toList.map Event.single ++
            Event.start kind :: r.styles.reverse.map Event.start) := by simp
  rw [hsplit, Event.placed_append (hn.leads_close hopened), hfront, List.nil_append]
  cases between with
  | none => exact hback []
  | some leaf =>
    cases hbetween leaf rfl
    rw [Option.toList_some, List.map_singleton, List.singleton_append, Event.placed, hback]
    rfl

theorem responds_newParagraph (hn : r.Nests spans) (ht : r.Tracks acted)
    (hs : feature.style? = none) (hb : feature.block? = some kind) {between : Option SpanKind}
    (hbetween : ∀ leaf ∈ between, leaf = .horizontalRule) {offset : Nat}
    (h : r.newParagraph kind between offset = .ok p) :
    r.Responds spans p (between.map .single) (acted ++ [feature]) := by
  unfold newParagraph at h
  split at h
  · cases h
  · rename_i hnone
    cases h
    exact ⟨apt_newParagraph hn (Feature.isParagraphLike_of_block? hb) hbetween,
      placed_newParagraph hn (List.getLast?_eq_none_iff.mp hnone) hbetween, ht.setBlock hs hb⟩

theorem responds_continueParagraph (hn : r.Nests spans) (ht : r.Tracks acted)
    (hs : feature.style? = none) (hb : feature.block? = some kind) {offset : Nat}
    (h : r.continueParagraph kind offset = .ok p) :
    r.Responds spans p none (acted ++ [feature]) := by
  unfold continueParagraph at h
  split at h
  · rename_i hsame
    cases h
    refine ⟨by simp, rfl, ?_⟩
    have hset := ht.setBlock hs hb
    rwa [← hsame] at hset
  · exact responds_newParagraph hn ht hs hb (by simp) h

theorem responds_shut (ht : r.Tracks acted) (hs : feature.style? = none)
    (hb : feature.block? = none) (first : Option String) (spans : List SpanKind) :
    r.Responds spans (r.shut kind first t)
      (if r.isIdle (.closer kind first) then some (.text t.text)
       else r.leafOf (.closer kind first))
      (if r.isIdle (.closer kind first) then acted else acted ++ [feature]) := by
  have hacted := ht.plain hs hb
  rw [isIdle, leafOf]
  by_cases hin : r.inside kind = true
  · have hleft := responds_leave hacted spans kind
    cases first <;> simpa [shut, leaveOrHidden, hin] using hleft
  · cases first with
    | none => simpa [shut, hin] using responds_text ht spans t.text
    | some first =>
      by_cases hhidden : r.inside .hidden = true
      · simpa [shut, leaveOrHidden, hin, hhidden] using responds_hidden hacted spans first
      · simpa [shut, leaveOrHidden, hin, hhidden] using responds_text ht spans t.text

theorem responds_mark (hn : r.Nests spans) (ht : r.Tracks acted)
    (hraw : r.inside .rawScript = false) (hm : r.mark feature t = .ok p) :
    r.Responds spans p
      (if r.takesLiterally feature then some (.text t.text) else r.actingLeaf? feature)
      (if r.takesLiterally feature then acted else acted ++ [feature]) := by
  have hproper := feature.proper_role
  have hstyle := feature.style?_eq
  have hblock := feature.block?_eq
  rw [mark_eq_act hraw] at hm
  rw [takesLiterally_eq hraw, actingLeaf?_eq]
  generalize feature.role = role at hproper hstyle hblock hm ⊢
  cases role with
  | style kind => exact (responds_style ht hstyle spans).of_ok hm
  | opener kind =>
    rw [act] at hm
    cases hrefusal : r.refusal? t.start kind with
    | none =>
      rw [hrefusal] at hm
      exact (responds_enter (ht.plain hstyle hblock) hproper spans t.start).of_ok hm
    | some e =>
      rw [hrefusal] at hm
      cases hm
  | closer kind first => exact (responds_shut ht hstyle hblock first spans).of_ok hm
  | leaf kind =>
    cases hm
    cases hproper
    exact ⟨by simp [Event.Apt, SpanKind.isSingle], rfl, ht.plain hstyle hblock⟩
  | paragraph kind between => exact responds_newParagraph hn ht hstyle hblock hproper.2 hm
  | block kind => exact responds_continueParagraph hn ht hstyle hblock hm

theorem acting_of_tag (h : t.tag = some feature) :
    acted ++ r.acting t = if r.takesLiterally feature then acted else acted ++ [feature] := by
  rw [acting, h]
  dsimp only
  split <;> simp

theorem leaf?_of_tag (h : t.tag = some feature) :
    r.leaf? t =
      if r.takesLiterally feature then some (.text t.text) else r.actingLeaf? feature := by
  rw [leaf?, h]

theorem responds_step (hn : r.Nests spans) (ht : r.Tracks acted) (h : r.step t = .ok p) :
    r.Responds spans p (r.leaf? t) (acted ++ r.acting t) := by
  unfold step at h
  split at h
  · rename_i htag
    simpa [leaf?, acting, htag] using (responds_text ht spans t.text).of_ok h
  · rename_i feature htag
    rw [acting_of_tag htag, leaf?_of_tag htag]
    split at h
    · rename_i hraw
      split at h
      · rename_i hclose
        have hacted : r.Tracks (acted ++ [Feature.rawClose]) := ht.plain rfl rfl
        simpa [takesLiterally, hraw, hclose, actingLeaf?, Feature.closes] using
          (responds_leave hacted spans .rawScript).of_ok h
      · rename_i hclose
        simpa [takesLiterally, hraw, hclose] using (responds_text ht spans t.text).of_ok h
    · rename_i hraw
      exact responds_mark hn ht (by simpa using hraw) h

/-- The leaves of the events of a run are those of its tokens, and stand where the markers
say. -/
theorem follows_run (hn : r.Nests spans) (ht : r.Tracks acted) (h : r.Run tokens events last) :
    (∀ e ∈ events, e.Apt) ∧
      List.Forall₂ Placed.Follows (Event.placed (spans ++ [r.paragraph]) events)
        (r.pieces acted tokens) := by
  induction h generalizing spans acted with
  | nil r => exact ⟨by simp, .nil⟩
  | @cons r next last t tokens es events step rest ih =>
    obtain ⟨spans', hn', hleads⟩ := hn.step step
    have hstep := responds_step hn ht step
    obtain ⟨hapt, hrest⟩ := ih hn' hstep.tracks
    refine ⟨?_, ?_⟩
    · intro e he
      rcases List.mem_append.mp he with he | he
      · exact hstep.apt e he
      · exact hapt e he
    · rw [Event.placed_append hleads, hstep.placed, pieces, step]
      refine List.rel_append ?_ hrest
      cases r.leaf? t with
      | none => exact .nil
      | some leaf => exact .cons (follows_place hn ht leaf) .nil

end Resolver

theorem SpanKind.Holds.blocks {children : List Range} (h : SpanKind.document.Holds children) :
    ∀ r ∈ children, r = .node .horizontalRule [] ∨
      ∃ kind inner, kind.isParagraphLike = true ∧ r = .node kind inner := by
  intro r hr
  obtain ⟨hadmits, hnested⟩ := h r hr
  cases hnested with
  | text s => cases hadmits
  | @node kind inner admitted _ =>
    rcases (Bool.or_eq_true _ _).mp hadmits with hkind | hkind
    · exact .inr ⟨kind, inner, hkind, rfl⟩
    · cases beq_iff_eq.mp hkind
      rw [Range.eq_nil_of_isSingle rfl admitted]
      exact .inl rfl

/-- In a document that is built from tokens each leaf, split where tokens meet, is under the
spans that the markers before it say, and the document holds nothing but paragraphs and
rules. -/
theorem Range.leaves_obey_markers (tokens : List (Token Feature)) (events : List Event)
    (maxDepth : Nat) (tree : Range) (h : Event.ofTokens tokens = .ok events)
    (ht : Range.ofEvents maxDepth events = .ok tree) :
    ∃ children pieces, tree = .node .document children ∧
      (∀ r ∈ children, r = .node .horizontalRule [] ∨
        ∃ kind inner, kind.isParagraphLike = true ∧ r = .node kind inner) ∧
      Placed.Joins pieces (leavesOf [] children) ∧
      List.Forall₂ Placed.Follows pieces (Resolver.initial.pieces [] tokens) := by
  obtain ⟨children, htree, hholds⟩ := Range.document_of_tokens h ht
  obtain ⟨out, last, hrun, -, rfl⟩ := Event.ofTokens_eq_ok h
  obtain ⟨b, hb, ht⟩ := bind_eq_ok_iff.mp ht
  rw [htree] at ht
  cases ht
  rw [Builder.foldlM_coalesce] at hb
  obtain ⟨hapt, hfollows⟩ := Resolver.follows_run .initial .initial hrun
  obtain ⟨spans, -, hleads⟩ := Resolver.Nests.initial.run hrun
  have hclosing :
      ∀ e ∈ last.styles.map Event.stop ++ [Event.stop last.paragraph],
        e.Apt ∧ e.leaf? = none := by
    intro e he
    simp only [List.mem_append, List.mem_map, List.mem_singleton] at he
    rcases he with ⟨style, -, rfl⟩ | rfl <;> exact ⟨trivial, rfl⟩
  have hplaced : Event.placed [] (Event.start .paragraph :: out ++
      (last.styles.map Event.stop ++ [Event.stop last.paragraph])) =
      Event.placed [.paragraph] out := by
    have hout : Event.placed [.paragraph]
        (out ++ (last.styles.map Event.stop ++ [Event.stop last.paragraph])) =
        Event.placed [.paragraph] out ++ _ := Event.placed_append hleads _
    rw [Resolver.placed_eq_nil fun e he => (hclosing e he).2, List.append_nil] at hout
    exact hout
  have hevents : ∀ e ∈ Event.start .paragraph :: out ++
      (last.styles.map Event.stop ++ [Event.stop last.paragraph]), e.Apt := by
    intro e he
    rcases List.mem_append.mp he with he | he
    · rcases List.mem_cons.mp he with rfl | he
      · rfl
      · exact hapt e he
    · exact (hclosing e he).1
  have hjoins := Range.joins_ofEvents hevents hb
  rw [hplaced] at hjoins
  exact ⟨_, _, htree, hholds.blocks, hjoins, hfollows⟩

/-- Emphasis that ends inside a hidden span, and strong emphasis that goes on in a quotation. -/
def Event.overlap : List (Token Feature) :=
  [⟨some .emphasis, 0, "*"⟩, ⟨none, 1, "a"⟩, ⟨some .hiddenOpen, 2, "["⟩, ⟨none, 3, "b"⟩,
    ⟨some .strongEmphasis, 4, "**"⟩, ⟨some .emphasis, 6, "*"⟩, ⟨none, 7, "c"⟩,
    ⟨some .hiddenClose, 8, "]"⟩, ⟨some .quotation, 9, ">"⟩, ⟨none, 10, "d"⟩]

theorem Range.overlap_obeys_markers :
    ∃ events tree, Event.ofTokens Event.overlap = .ok events ∧
      Range.ofEvents 4 events = .ok tree ∧
      ∃ children pieces, tree = .node .document children ∧
        Placed.Joins pieces (leavesOf [] children) ∧
        List.Forall₂ Placed.Follows pieces
          [([.emphasis], .text "a"), ([.emphasis, .hiddenOpen], .text "b"),
            ([.emphasis, .hiddenOpen, .strongEmphasis, .emphasis], .text "c"),
            ([.emphasis, .hiddenOpen, .strongEmphasis, .emphasis, .hiddenClose, .quotation],
              .text "d")] := by
  have hpieces : Resolver.initial.pieces [] Event.overlap =
      [([.emphasis], .text "a"), ([.emphasis, .hiddenOpen], .text "b"),
        ([.emphasis, .hiddenOpen, .strongEmphasis, .emphasis], .text "c"),
        ([.emphasis, .hiddenOpen, .strongEmphasis, .emphasis, .hiddenClose, .quotation],
          .text "d")] := by
    decide
  have h : Event.ofTokens Event.overlap = .ok
      [.start .paragraph, .start .emphasis, .text "a", .start .hidden, .text "b",
        .start .strongEmphasis, .stop .emphasis, .text "c", .stop .hidden,
        .stop .strongEmphasis, .stop .paragraph, .start .quotation, .start .strongEmphasis,
        .text "d", .stop .strongEmphasis, .stop .quotation] := by
    decide
  obtain ⟨children, pieces, htree, -, hjoins, hfollows⟩ :=
    Range.leaves_obey_markers Event.overlap _ 4 _ h rfl
  rw [hpieces] at hfollows
  exact ⟨_, _, h, rfl, children, pieces, htree, hjoins, hfollows⟩

end Fabula
