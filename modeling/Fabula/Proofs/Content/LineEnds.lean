import Fabula.Proofs.Markup.Depth
import Fabula.Proofs.Markup.LineEnds
import Fabula.Proofs.Content.Shape

namespace Fabula

namespace Text

theorem collapseFrom_crlf (inRun : Bool) (cs : List Char) :
    collapseFrom inRun (crlf cs) = collapseFrom inRun cs := by
  have hfeed : isBlank '\n' = true := rfl
  have hreturn : isBlank '\r' = true := rfl
  fun_induction crlf cs generalizing inRun with
  | case1 => rfl
  | case2 cs ih => simp only [collapseFrom, hfeed, hreturn, if_true, ih]
  | case3 c cs hc ih => simp only [collapseFrom, ih]

theorem collapse_returned (s : String) : collapse (returned s) = collapse s := by
  rw [collapse, collapse, returned, String.toList_ofList, collapseFrom_crlf]

end Text

namespace Range

variable {r : Range} {rs : List Range}

mutual

/-- The range with carriage returns in all its texts. -/
def returned : Range → Range
  | text s => text (Text.returned s)
  | node kind children => node kind (returnedAll children)

def returnedAll : List Range → List Range
  | [] => []
  | r :: rest => r.returned :: returnedAll rest

end

@[simp]
theorem returnedAll_eq_map (rs : List Range) : returnedAll rs = rs.map returned := by
  induction rs with
  | nil => rfl
  | cons r rs ih => rw [returnedAll, ih, List.map_cons]

theorem addText_returned (s : String) (parts : List Range) :
    addText (Text.returned s) (parts.map returned) = (addText s parts).map returned := by
  cases parts with
  | nil => simp [addText, returned]
  | cons r rest => cases r <;> simp [addText, returned]

inductive Scriptless : Range → Prop where
  | text (s : String) : Scriptless (.text s)
  | node {kind : SpanKind} {children : List Range} (other : kind ≠ .rawScript)
      (inner : ∀ r ∈ children, Scriptless r) : Scriptless (.node kind children)

mutual

theorem scriptless_of_sites (depth : Nat) :
    (r : Range) → (∀ site ∈ r.sites depth, site.kind ≠ .rawScript) → r.Scriptless
  | text s, _ => .text s
  | node kind children, h => by
    obtain ⟨hkind, hinner⟩ := List.forall_mem_cons.mp h
    exact .node hkind (scriptless_of_sitesOf (depth + 1) children hinner)

theorem scriptless_of_sitesOf (depth : Nat) :
    (rs : List Range) → (∀ site ∈ sitesOf depth rs, site.kind ≠ .rawScript) →
      ∀ r ∈ rs, r.Scriptless
  | [], _ => by simp
  | r :: rest, h => by
    obtain ⟨hfirst, hrest⟩ := List.forall_mem_append.mp h
    exact List.forall_mem_cons.mpr
      ⟨scriptless_of_sites depth r hfirst, scriptless_of_sitesOf depth rest hrest⟩

end

end Range

/-- The move with carriage returns in its text. -/
def Move.returned : Move → Move
  | write s => write (Text.returned s)
  | m => m

namespace Event

theorem leaving_returned (kind : SpanKind) (kinds : List SpanKind) :
    (leaving kind kinds).map Move.returned = leaving kind kinds := by
  induction kinds with
  | nil => rfl
  | cons k ks ih =>
    rw [leaving]
    split
    · rfl
    · rw [List.map_cons, List.map_append, ih]
      rfl

theorem moves_returned (e : Event) (kinds : List SpanKind) :
    e.returned.moves kinds = (e.moves kinds).map Move.returned := by
  cases e with
  | text s => rfl
  | start kind => rfl
  | stop kind =>
    have hstop : (stop kind).returned = stop kind := rfl
    rw [hstop, moves]
    split
    · exact (leaving_returned kind kinds).symm
    · rfl
  | single kind => rfl

theorem returned_eq_start_iff {e : Event} {kind : SpanKind} :
    e.returned = start kind ↔ e = start kind := by
  cases e <;> simp [returned]

end Event

namespace Builder

def returnedFrame (f : Frame) : Frame := ⟨f.kind, f.parts.map Range.returned⟩

/-- The tree being built with carriage returns in its texts. -/
def returned (b : Builder) : Builder :=
  ⟨b.frames.map returnedFrame, b.parts.map Range.returned⟩

theorem kinds_returned (b : Builder) : b.returned.kinds = b.kinds :=
  List.map_map

theorem onParts_returned {g g' : List Range → List Range} (b : Builder)
    (h : ∀ parts, g' (parts.map Range.returned) = (g parts).map Range.returned) :
    b.returned.onParts g' = (b.onParts g).returned := by
  obtain ⟨frames, parts⟩ := b
  cases frames <;> simp [onParts, returned, returnedFrame, h]

theorem close_returned (f : Frame) : (returnedFrame f).close = f.close.returned := by
  simp [Frame.close, Range.returned, returnedFrame]

theorem move_returned (b : Builder) (m : Move) :
    b.returned.move m.returned = (b.move m).returned := by
  cases m with
  | write s => exact onParts_returned b (Range.addText_returned s)
  | leaf kind => exact onParts_returned b fun _ => rfl
  | enter kind => rfl
  | leave =>
    obtain ⟨frames, parts⟩ := b
    cases frames with
    | nil => rfl
    | cons f fs =>
      have hadd := onParts_returned ⟨fs, parts⟩ (g := (f.close :: ·)) fun _ => rfl
      rw [← close_returned] at hadd
      exact hadd

theorem moves_returned (b : Builder) (ms : List Move) :
    (ms.map Move.returned).foldl move b.returned = (ms.foldl move b).returned := by
  induction ms generalizing b with
  | nil => rfl
  | cons m ms ih => rw [List.map_cons, List.foldl_cons, List.foldl_cons, move_returned, ih]

theorem step_returned (maxDepth : Nat) (b : Builder) (e : Event) :
    step maxDepth b.returned e.returned = (step maxDepth b e).map returned := by
  cases h : step maxDepth b e with
  | error err =>
    obtain ⟨rfl, ⟨kind, he⟩, hlimit⟩ := step_eq_error_iff.mp h
    apply step_eq_error_iff.mpr
    exact ⟨rfl, ⟨kind, Event.returned_eq_start_iff.mpr he⟩, by rwa [kinds_returned]⟩
  | ok b' =>
    obtain ⟨hroom, rfl⟩ := step_eq_ok_iff.mp h
    apply step_eq_ok_iff.mpr
    rw [kinds_returned, Event.moves_returned, moves_returned]
    exact ⟨fun kind he => hroom kind (Event.returned_eq_start_iff.mp he), rfl⟩

theorem run_returned (maxDepth : Nat) (b : Builder) (events : List Event) :
    (events.map Event.returned).foldlM (step maxDepth) b.returned =
      (events.foldlM (step maxDepth) b).map returned := by
  induction events generalizing b with
  | nil => rfl
  | cons e events ih =>
    rw [List.map_cons, List.foldlM_cons, List.foldlM_cons, step_returned]
    cases step maxDepth b e with
    | error => rfl
    | ok next => exact ih next

theorem finish_returned (b : Builder) :
    finish none b.returned.parts b.returned.frames =
      (finish none b.parts b.frames).map Range.returned := by
  have hleaves : (b.returned.frames.map fun _ => Move.leave) =
      (b.frames.map fun _ => Move.leave).map Move.returned := by
    rw [returned, List.map_map, List.map_map]
    rfl
  rw [finish_none, finish_none, hleaves, moves_returned, List.map_reverse]
  rfl

end Builder

namespace Range

variable {r : Range} {rs : List Range}

theorem ofEvents_returned (maxDepth : Nat) (events : List Event) :
    ofEvents maxDepth (events.map Event.returned) =
      (ofEvents maxDepth events).map returned := by
  have hrun : (events.map Event.returned).foldlM (Builder.step maxDepth) .empty =
      (events.foldlM (Builder.step maxDepth) .empty).map Builder.returned :=
    Builder.run_returned maxDepth .empty events
  unfold ofEvents
  rw [hrun]
  cases events.foldlM (Builder.step maxDepth) .empty with
  | error => rfl
  | ok b =>
    have hfinish := b.finish_returned
    rw [← returnedAll_eq_map (Builder.finish none b.parts b.frames)] at hfinish
    exact congrArg (fun children => Except.ok (node .document children)) hfinish

theorem scriptless_ofEvents {maxDepth : Nat} {events : List Event}
    (he : ∀ e ∈ events, e.Scriptless) (h : ofEvents maxDepth events = .ok r) :
    r.Scriptless := by
  obtain ⟨children, rfl, hsites⟩ := sites_ofEvents h
  refine .node (by decide) (scriptless_of_sitesOf 1 children ?_)
  intro site hsite hraw
  rw [hsites] at hsite
  obtain ⟨growth, hgrowth, rfl⟩ := List.mem_map.mp hsite
  have hkind := Event.kind_of_mem_grown hgrowth
  rw [hraw] at hkind
  rcases hkind with hmem | hstart | hsingle
  · cases hmem
  · exact (he _ hstart).1 rfl
  · exact (he _ hsingle).2 rfl

def returnedText : Range → Range
  | text s => text (Text.returned s)
  | r => r

theorem consJoined_returnedText (r : Range) (rs : List Range) :
    consJoined r.returnedText (rs.map returnedText) = (consJoined r rs).map returnedText := by
  cases r with
  | node kind children => rfl
  | text a =>
    cases rs with
    | nil => rfl
    | cons next rest => cases next <;> simp [consJoined, returnedText]

theorem tidyAll_returned (h : ∀ r ∈ rs, r.returned.tidy = r.tidy.map returnedText) :
    tidyAll (rs.map returned) = (tidyAll rs).map returnedText := by
  induction rs with
  | nil => rfl
  | cons r rs ih =>
    obtain ⟨hr, hrs⟩ := List.forall_mem_cons.mp h
    rw [List.map_cons, tidyAll, tidyAll, hr, ih hrs]
    cases r.tidy with
    | none => rfl
    | some kept => exact consJoined_returnedText kept _

theorem collapseTexts_returnedText (rs : List Range) :
    collapseTexts (rs.map returnedText) = collapseTexts rs := by
  induction rs with
  | nil => rfl
  | cons r rs ih => cases r <;> simp [collapseTexts, returnedText, Text.collapse_returned, ih]

/-- Outside raw script a tidied tree shows no carriage returns, except in a text that stands
alone. -/
theorem Scriptless.tidy_returned (h : r.Scriptless) :
    r.returned.tidy = r.tidy.map returnedText := by
  induction h with
  | text s => rfl
  | @node kind children other inner ih =>
    have hchildren :
        tidyTexts kind (tidyAll (children.map returned)) =
          tidyTexts kind (tidyAll children) := by
      rw [tidyTexts, tidyAll_returned ih, collapseTexts_returnedText]
      rfl
    rw [returned, returnedAll_eq_map, tidy, tidy, if_neg other, if_neg other, hchildren]
    split
    · rfl
    · dsimp only
      split <;> rfl

end Range

theorem Content.compile_returned (dialect : Dialect Category) (maxSteps maxDepth : Nat)
    {source : String} {collect : Bool} (hreturn : '\r' ∉ source.toList)
    (hraw : ¬"\x7b!".toList <:+: source.toList)
    (hrule : collect = true → ¬Feature.HasRuledLine source.toList) :
    Parallel Eq (compile dialect maxSteps maxDepth source collect)
      (compile dialect maxSteps maxDepth (Text.returned source) collect) := by
  have hscan :
      Parallel (List.Forall₂ Token.Returned) ((Feature.table collect maxSteps).scan true source)
      ((Feature.table collect maxSteps).scan true (Text.returned source)) :=
    Table.scan_crlf (Feature.steady_table maxSteps hreturn hrule) String.toList_ofList
  have htokens := hscan.and_left fun tokens h => Feature.not_rawOpen_of_scan h hraw
  refine (htokens.mapError _ _).bind ?_
  rintro tokens tokens' ⟨hreturned, hopen⟩
  refine ((Event.ofTokens_returned hreturned hopen).mapError _ _).bind ?_
  rintro events _ ⟨rfl, hscript⟩
  have htree : Parallel (fun tree tree' => tree' = tree.returned ∧ tree.Scriptless)
      (Range.ofEvents maxDepth events)
        (Range.ofEvents maxDepth (events.map Event.returned)) := by
    rw [Range.ofEvents_returned]
    exact (Parallel.map_right _ _).and_left fun tree => Range.scriptless_ofEvents hscript
  refine (htree.mapError _ _).bind ?_
  rintro tree _ ⟨rfl, hplain⟩
  rw [hplain.tidy_returned]
  -- A document is a node, and a tidied node shows no carriage returns.
  cases tree.tidy with
  | none => exact .refl _
  | some kept => cases kept <;> exact .refl _

namespace Compiler

/-- Where nothing is raw script and no line that a line feed ends is a rule among collected
paragraphs, the content of a text does not change with a carriage return before each of its line
feeds: both texts compile to the same root and dependencies, or neither compiles. -/
theorem compileContent_returned (c : Compiler) (source : String) (collect : Bool)
    (hreturn : '\r' ∉ source.toList) (hraw : ¬"\x7b!".toList <:+: source.toList)
    (hrule : collect = true → ¬Feature.HasRuledLine source.toList) :
    (c.compileContent (Text.returned source) collect).toOption =
      (c.compileContent source collect).toOption :=
  (Content.compile_returned c.dialect _ _ hreturn hraw hrule).toOption_eq.symm

/-- A heading, a quotation with a line break and an insert over two lines, and a rule that ends
the text. -/
def verse : String := "= a\n\n> *b//\n[+c\n:d+]*\n---"

theorem compileContent_returned_verse :
    Text.returned verse = "= a\r\n\r\n> *b//\r\n[+c\r\n:d+]*\r\n---" ∧
      (compileContent ⟨Limits.standard⟩ verse true).toBool = true ∧
      (compileContent ⟨Limits.standard⟩ (Text.returned verse) true).toOption =
        (compileContent ⟨Limits.standard⟩ verse true).toOption := by
  refine ⟨by decide +kernel, by decide +kernel, compileContent_returned _ _ _ ?_ ?_ fun _ => ?_⟩
  · decide +kernel
  · decide +kernel
  · exact Feature.not_hasRuledLine (by decide +kernel)

/-- Three dashes before a line feed are a rule, and before a carriage return they are words. -/
theorem ruledLine_not_returned :
    '\r' ∉ "---\nx".toList ∧ ¬"\x7b!".toList <:+: "---\nx".toList ∧
      ∃ content content', compileContent ⟨Limits.standard⟩ "---\nx" true = .ok content ∧
        compileContent ⟨Limits.standard⟩ (Text.returned "---\nx") true = .ok content' ∧
        content.root ≠ content'.root := by
  have hfeed :
      (compileContent ⟨Limits.standard⟩ "---\nx" true).map (·.root.isSequence) = .ok true := by
    decide +kernel
  have hreturn :
      (compileContent ⟨Limits.standard⟩ (Text.returned "---\nx") true).map (·.root.isSequence) =
        .ok false := by
    decide +kernel
  obtain ⟨content, hcontent, hsequence⟩ := map_eq_ok_iff.mp hfeed
  obtain ⟨content', hcontent', hsequence'⟩ := map_eq_ok_iff.mp hreturn
  refine ⟨by decide +kernel, by decide +kernel, content, content', hcontent, hcontent', ?_⟩
  intro hroot
  rw [hroot, hsequence'] at hsequence
  cases hsequence

end Compiler

end Fabula
