import Fabula.Proofs.Markup.Fidelity
import Fabula.Proofs.Markup.Tidiness

namespace Fabula

namespace Text

/-- The characters of a text that are not blank. -/
def visible (s : String) : List Char := s.toList.filter (!isBlank ·)

@[simp]
theorem visible_append (s t : String) : visible (s ++ t) = visible s ++ visible t := by
  simp [visible]

theorem visible_eq_nil {s : String} (h : isBlankText s = true) : visible s = [] := by
  simpa [visible, isBlankText] using h

theorem filter_dropBlank (cs : List Char) :
    (dropBlank cs).filter (!isBlank ·) = cs.filter (!isBlank ·) := by
  induction cs with
  | nil => rfl
  | cons c cs ih =>
    by_cases hc : isBlank c = true
    · simpa [dropBlank, hc] using ih
    · simp [dropBlank, hc]

@[simp]
theorem visible_trimStart (s : String) : visible (trimStart s) = visible s := by
  simp [visible, trimStart, filter_dropBlank]

@[simp]
theorem visible_trimEnd (s : String) : visible (trimEnd s) = visible s := by
  have h := filter_dropBlank s.toList.reverse
  rw [List.filter_reverse] at h
  simp [visible, trimEnd, dropBlankEnd, dropBlank] at h ⊢
  rw [h, List.reverse_reverse]

theorem filter_collapseFrom (inRun : Bool) (cs : List Char) :
    (collapseFrom inRun cs).filter (!isBlank ·) = cs.filter (!isBlank ·) := by
  have hspace : isBlank ' ' = true := by decide
  induction cs generalizing inRun with
  | nil => rfl
  | cons c cs ih =>
    rw [collapseFrom]
    split
    · rename_i hc
      split
      · rw [ih, List.filter_cons_of_neg (by simp [hc])]
      · rw [List.filter_cons_of_neg (by simp [hspace]), ih,
          List.filter_cons_of_neg (by simp [hc])]
    · rename_i hc
      rw [List.filter_cons_of_pos (by simp [hc]), List.filter_cons_of_pos (by simp [hc]), ih]

@[simp]
theorem visible_collapse (s : String) : visible (collapse s) = visible s := by
  simp [visible, collapse, filter_collapseFrom]

end Text

namespace Event

/-- The texts of some events, one after the other. -/
def textOf : List Event → String
  | [] => ""
  | text s :: rest => s ++ textOf rest
  | _ :: rest => textOf rest

@[simp]
theorem textOf_append (front rest : List Event) :
    textOf (front ++ rest) = textOf front ++ textOf rest := by
  fun_induction textOf front with
  | case1 => simp
  | case2 s front ih => simp [textOf, ih, String.append_assoc]
  | case3 e front he ih =>
    rw [List.cons_append, textOf, ih]
    exact he

theorem textOf_eq_empty {events : List Event} (h : ∀ s, .text s ∉ events) :
    textOf events = "" := by
  fun_induction textOf events with
  | case1 => rfl
  | case2 s rest ih => exact absurd List.mem_cons_self (h s)
  | case3 e rest he ih => exact ih fun s hs => h s (List.mem_cons_of_mem _ hs)

theorem textOf_coalesce (events : List Event) : textOf (coalesce events) = textOf events := by
  fun_induction coalesce events with
  | case1 => rfl
  | case2 s rest t rest' hrest ih =>
    rw [textOf, textOf, ← ih, hrest, textOf, String.append_assoc]
  | case3 s rest hrest ih => rw [textOf, textOf, ih]
  | case4 e rest he ih =>
    rw [textOf, textOf, ih]
    · exact he
    · exact he

end Event

namespace Leaf

def body : Leaf → String
  | text s => s
  | single _ => ""

/-- The texts of some leaves, one after the other. -/
def textOf : List Leaf → String
  | [] => ""
  | leaf :: rest => leaf.body ++ textOf rest

@[simp]
theorem textOf_append (front rest : List Leaf) :
    textOf (front ++ rest) = textOf front ++ textOf rest := by
  induction front with
  | nil => simp [textOf]
  | cons leaf front ih => simp [textOf, ih, String.append_assoc]

theorem textOf_toList (leaf : Option Leaf) : textOf leaf.toList = leaf.elim "" body := by
  cases leaf <;> simp [textOf]

end Leaf

namespace Placed

variable {pieces leaves : List Placed}

theorem Joins.textOf_eq (h : Joins pieces leaves) :
    Leaf.textOf (pieces.map leaf) = Leaf.textOf (leaves.map leaf) := by
  induction h with
  | nil => rfl
  | add piece before ih =>
    rw [List.map_append, List.map_append, Leaf.textOf_append, ih, Leaf.textOf_append]
  | join t before ih =>
    rw [List.map_append, Leaf.textOf_append] at ih ⊢
    simp [ih, Leaf.textOf, Leaf.body, String.append_assoc]

theorem map_leaf_of_follows {pieces : List (List Feature × Leaf)}
    (h : List.Forall₂ Follows leaves pieces) : leaves.map leaf = pieces.map Prod.snd := by
  induction h with
  | nil => rfl
  | cons hfirst _ ih => rw [List.map_cons, List.map_cons, ih, hfirst.1]

end Placed

theorem Event.textOf_placed (kinds : List SpanKind) (events : List Event) :
    Leaf.textOf ((placed kinds events).map Placed.leaf) = textOf events := by
  induction events generalizing kinds with
  | nil => rfl
  | cons e events ih =>
    rw [placed, List.map_append, Leaf.textOf_append, ih]
    cases e <;> simp [leaf?, Leaf.textOf, Leaf.body, textOf]

namespace Resolver

variable {r last : Resolver} {tokens : List (Token Feature)} {events : List Event}
  {spans : List SpanKind} {acted : List Feature}

/-- What is kept as text of a marker that acts: of one that ends a hidden span for want of a
span of its own the first character, and nothing of any other. -/
def keptOfMarker (r : Resolver) (feature : Feature) : String :=
  if feature.closes.head?.any r.inside then "" else feature.sign?.getD ""

def kept (r : Resolver) (t : Token Feature) : String :=
  match t.tag with
  | none => t.text
  | some feature => if r.takesLiterally feature then t.text else r.keptOfMarker feature

/-- What is kept as text of tokens that are resolved one after the other. -/
def keptOf (r : Resolver) : List (Token Feature) → String
  | [] => ""
  | t :: rest =>
    r.kept t ++
      match r.step t with
      | .ok (next, _) => next.keptOf rest
      | .error _ => ""

theorem keptOfMarker_eq (feature : Feature) :
    r.keptOfMarker feature = (r.actingLeaf? feature).elim "" Leaf.body := by
  rw [actingLeaf?.eq_def]
  split
  · rfl
  · rfl
  · rw [keptOfMarker]
    split
    · rfl
    · cases feature.sign? <;> rfl

/-- What is kept of a token is the text of the leaf that it adds. -/
theorem kept_eq (t : Token Feature) : r.kept t = (r.leaf? t).elim "" Leaf.body := by
  cases htag : t.tag with
  | none =>
    rw [kept, leaf?, htag]
    rfl
  | some feature =>
    rw [kept, leaf?_of_tag htag, htag]
    dsimp only
    split
    · rfl
    · exact keptOfMarker_eq feature

theorem keptOf_eq (acted : List Feature) (tokens : List (Token Feature)) :
    r.keptOf tokens = Leaf.textOf ((r.pieces acted tokens).map Prod.snd) := by
  induction tokens generalizing r acted with
  | nil => rfl
  | cons t tokens ih =>
    have hfirst :
        ((r.leaf? t).map (Prod.mk acted)).toList.map Prod.snd = (r.leaf? t).toList := by
      cases r.leaf? t <;> rfl
    rw [keptOf, pieces, List.map_append, Leaf.textOf_append, hfirst,
      Leaf.textOf_toList, kept_eq]
    cases r.step t with
    | error e => rfl
    | ok p => exact congrArg _ (ih _)

theorem textOf_run (hn : r.Nests spans) (ht : r.Tracks acted) (h : r.Run tokens events last) :
    Event.textOf events = r.keptOf tokens := by
  obtain ⟨-, hfollows⟩ := follows_run hn ht h
  rw [keptOf_eq acted, ← Placed.map_leaf_of_follows hfollows, Event.textOf_placed]

end Resolver

namespace Range

mutual

def fullText : Range → String
  | text s => s
  | node _ children => fullTextOf children

def fullTextOf : List Range → String
  | [] => ""
  | r :: rest => r.fullText ++ fullTextOf rest

end

end Range

theorem Range.Reads.fullTextOf_eq {events : List Event} {above : List SpanKind}
    {rs : List Range} {leaves : List Placed} (h : Reads events above rs leaves) :
    fullTextOf rs = Leaf.textOf (leaves.map Placed.leaf) := by
  induction h with
  | nil => rfl
  | text s after ih => rw [fullTextOf, ih, List.map_cons, Leaf.textOf, fullText, Leaf.body]
  | single added after ih =>
    rw [fullTextOf, ih, List.map_cons, Leaf.textOf, fullText, fullTextOf, Leaf.body]
  | span begun within after ihWithin ihAfter =>
    rw [fullTextOf, fullText, ihWithin, ihAfter, List.map_append, Leaf.textOf_append]

/-- A tree holds the text of the events that it is built from, whatever they are. -/
theorem Range.fullText_ofEvents {maxDepth : Nat} {events : List Event} {tree : Range}
    (h : Range.ofEvents maxDepth events = .ok tree) : tree.fullText = Event.textOf events := by
  obtain ⟨b, hb, h⟩ := bind_eq_ok_iff.mp h
  cases h
  obtain ⟨leaves, hreads, hjoins⟩ := reads_ofEvents hb
  rw [fullText, hreads.fullTextOf_eq, ← hjoins.textOf_eq, Event.textOf_placed]

namespace Range

section Tidying

variable {r : Range} {rs children : List Range} {kind : SpanKind}

theorem fullTextOf_consJoined (r : Range) (rs : List Range) :
    fullTextOf (consJoined r rs) = r.fullText ++ fullTextOf rs := by
  unfold consJoined
  split
  · simp [fullTextOf, fullText, String.append_assoc]
  · rfl

theorem visible_collapseTexts (rs : List Range) :
    Text.visible (fullTextOf (collapseTexts rs)) = Text.visible (fullTextOf rs) := by
  fun_induction collapseTexts rs with
  | case1 => rfl
  | case2 s rest ih => simp [fullTextOf, fullText, ih]
  | case3 r rest hr ih => simp [fullTextOf, ih]

theorem visible_trimBeforeBreaks (rs : List Range) :
    Text.visible (fullTextOf (trimBeforeBreaks rs)) = Text.visible (fullTextOf rs) := by
  fun_induction trimBeforeBreaks rs with
  | case1 => rfl
  | case2 s rest ih =>
    split <;> simp [fullTextOf, fullText, ih]
  | case3 r rest hr ih => simp [fullTextOf, ih]

theorem visible_trimFirst (rs : List Range) :
    Text.visible (fullTextOf (trimFirst rs)) = Text.visible (fullTextOf rs) := by
  unfold trimFirst
  split
  · simp [fullTextOf, fullText]
  · rfl

theorem visible_trimLast (rs : List Range) :
    Text.visible (fullTextOf (trimLast rs)) = Text.visible (fullTextOf rs) := by
  fun_induction trimLast rs with
  | case1 => rfl
  | case2 s => simp [fullTextOf, fullText]
  | case3 r rest hr ih => simp [fullTextOf, ih]

theorem fullTextOf_filter (rs : List Range) :
    fullTextOf (rs.filter (!·.isEmptyText)) = fullTextOf rs := by
  induction rs with
  | nil => rfl
  | cons r rs ih =>
    cases hr : r.isEmptyText with
    | true =>
      rw [List.filter_cons_of_neg (by simp [hr]), ih, fullTextOf]
      cases r with
      | text s => simp [fullText, String.isEmpty_iff.mp hr]
      | node kind children => cases hr
    | false => rw [List.filter_cons_of_pos (by simp [hr]), fullTextOf, fullTextOf, ih]

theorem visible_tidyTexts (kind : SpanKind) (rs : List Range) :
    Text.visible (fullTextOf (tidyTexts kind rs)) = Text.visible (fullTextOf rs) := by
  unfold tidyTexts
  rw [fullTextOf_filter]
  split
  · rw [visible_trimLast, visible_trimFirst, visible_trimBeforeBreaks, visible_collapseTexts]
  · rw [visible_trimBeforeBreaks, visible_collapseTexts]

/-- What is left of the text in a range once it is tidied. -/
def tidyText (r : Range) : String := r.tidy.elim "" fullText

theorem visible_tidyAll (h : ∀ r ∈ rs, Text.visible r.tidyText = Text.visible r.fullText) :
    Text.visible (fullTextOf (tidyAll rs)) = Text.visible (fullTextOf rs) := by
  induction rs with
  | nil => rfl
  | cons r rs ih =>
    have hr := h r List.mem_cons_self
    have hrs := ih fun r' hr' => h r' (List.mem_cons_of_mem _ hr')
    rw [tidyText] at hr
    rw [tidyAll, fullTextOf, Text.visible_append, ← hr, ← hrs]
    split
    · rename_i kept hkept
      rw [fullTextOf_consJoined, Text.visible_append, hkept]
      rfl
    · rename_i hnone
      rw [hnone]
      rfl

theorem plainText_eq (h : ∀ r ∈ rs, SpanKind.rawScript.admits r.kind? = true) :
    plainText rs = fullTextOf rs := by
  induction rs with
  | nil => rfl
  | cons r rs ih =>
    have hrs := ih fun r' hr' => h r' (List.mem_cons_of_mem _ hr')
    cases r with
    | text s => rw [plainText, fullTextOf, hrs, fullText]
    | node kind children => cases h _ List.mem_cons_self

/-- Tidying a tree in which everything stands where it may leaves all that is not blank. -/
theorem WellNested.visible_tidyText (h : r.WellNested) :
    Text.visible r.tidyText = Text.visible r.fullText := by
  induction h with
  | text s => rfl
  | @node kind children admitted inner ih =>
    rw [tidyText, tidy]
    split
    · rename_i hsingle
      rw [eq_nil_of_isSingle hsingle admitted]
      rfl
    · split
      · rename_i hraw
        cases hraw
        rw [plainText_eq admitted]
        dsimp only
        split
        · rename_i hblank
          rw [Option.elim_none, fullText, Text.visible_eq_nil hblank]
          rfl
        · simp [fullText, fullTextOf]
      · dsimp only
        have hall := visible_tidyTexts kind (tidyAll children)
        rw [visible_tidyAll ih] at hall
        rw [fullText, ← hall]
        split
        · rename_i hempty
          rw [Bool.and_eq_true] at hempty
          rw [List.isEmpty_iff.mp hempty.1]
          rfl
        · rfl

end Tidying

end Range

/-- The text of the events is what is kept of the tokens, in order. A tree that is built from
them holds the same text, and once it is tidied the same but for blanks. What is kept of a
closer that ends a hidden span is the first character of any that a scan finds. -/
theorem Event.ofTokens_preserves_text (tokens : List (Token Feature)) (events : List Event)
    (h : Event.ofTokens tokens = .ok events) :
    textOf events = Resolver.initial.keptOf tokens ∧
      (∀ maxDepth tree, Range.ofEvents maxDepth events = .ok tree →
        tree.fullText = Resolver.initial.keptOf tokens ∧
          Text.visible tree.tidyText = Text.visible tree.fullText) ∧
      ∀ collect maxSteps lenient source,
        (Feature.table collect maxSteps).scan lenient source = .ok tokens →
          ∀ t ∈ tokens, ∀ feature ∈ t.tag, ∀ sign ∈ feature.sign?, t.text = sign ++ "]" := by
  have htext : textOf events = Resolver.initial.keptOf tokens := by
    obtain ⟨out, last, hrun, -, rfl⟩ := Event.ofTokens_eq_ok h
    have hclose : textOf (last.styles.map .stop ++ [.stop last.paragraph]) = "" :=
      textOf_eq_empty (by simp)
    rw [textOf_coalesce, textOf_append, hclose, String.append_empty,
      ← Resolver.textOf_run .initial .initial hrun]
    rfl
  refine ⟨htext, ?_, fun _ _ _ _ hscan => Feature.text_of_sign hscan⟩
  intro maxDepth tree htree
  obtain ⟨parts, hparts, hheld⟩ := Range.document_of_tokens h htree
  refine ⟨(Range.fullText_ofEvents htree).trans htext, ?_⟩
  rw [hparts]
  exact hheld.wellNested.visible_tidyText

def Event.aside : List (Token Feature) :=
  [⟨some .hiddenOpen, 0, "["⟩, ⟨none, 1, "sh "⟩, ⟨some .insertClose, 4, "+]"⟩,
    ⟨some .emphasis, 6, "*"⟩, ⟨some .rawOpen, 7, "\x7b!"⟩, ⟨some .strongEmphasis, 9, "**"⟩,
    ⟨some .rawClose, 11, "!\x7d"⟩, ⟨some .hiddenClose, 13, "]"⟩]

theorem Event.aside_preserves_text :
    ∃ events tree, Event.ofTokens aside = .ok events ∧ textOf events = "sh +**]" ∧
      Range.ofEvents 8 events = .ok tree ∧ tree.fullText = "sh +**]" ∧
      Text.visible tree.tidyText = Text.visible "sh +**]" := by
  have hkept : Resolver.initial.keptOf aside = "sh +**]" := by decide
  have h : Event.ofTokens aside = .ok
      [.start .paragraph, .start .hidden, .text "sh +", .stop .hidden, .start .emphasis,
        .start .rawScript, .text "**", .stop .rawScript, .text "]", .stop .emphasis,
        .stop .paragraph] := by decide
  obtain ⟨htext, htree, -⟩ := Event.ofTokens_preserves_text aside _ h
  obtain ⟨hfull, hvisible⟩ := htree 8 _ rfl
  rw [hkept] at htext hfull
  rw [hfull] at hvisible
  exact ⟨_, _, h, htext, rfl, hfull, hvisible⟩

end Fabula
