import Fabula.Proofs.Content.Linking
import Fabula.Proofs.Markup.Scanning
import Fabula.Proofs.Markup.Tidiness

namespace Fabula

namespace Node

variable {n : Node}

def text? : Node → Option String
  | text s => some s
  | _ => none

/-- Blocks of text of their own and the rules between them. -/
def isBlock : Node → Bool
  | styled .paragraph _ | styled .quotation _ | styled .attribution _ | styled .heading _ =>
    true
  | horizontalRule => true
  | _ => false

def isSequence : Node → Bool
  | sequence _ => true
  | _ => false

/-- What a node holds directly is in normal form. -/
structure Neat (n : Node) : Prop where
  filled : ∀ c ∈ n.children, c.text? ≠ some ""
  apart : Apart (n.children.map text?)
  held : ∀ style children, n = styled style children → children ≠ []

def Inline (n : Node) : Prop :=
  ∀ m : Node, m.Within n → m.Neat ∧ m.isBlock = false ∧ m.isSequence = false

/-- A node that may stand at the root when paragraphs are collected. -/
structure Block (n : Node) : Prop where
  block : n.isBlock = true
  neat : n.Neat
  inner : ∀ c ∈ n.children, c.Inline

theorem neat_of_children_eq_nil (hc : n.children = []) (hs : ∀ style, n ≠ styled style []) :
    n.Neat := by
  refine ⟨by simp [hc], by rw [hc]; exact .nil, ?_⟩
  rintro style children rfl
  cases hc
  exact absurd rfl (hs style)

theorem inline_leaf (hc : n.children = []) (hs : ∀ style, n ≠ styled style [])
    (hb : n.isBlock = false) (hq : n.isSequence = false) : n.Inline :=
  forall_within_iff.mpr ⟨⟨neat_of_children_eq_nil hc hs, hb, hq⟩, by simp [hc]⟩

end Node

namespace Extract

variable {dialect : Dialect Category} {next : Nat} {r : Range}
  {rs children : List Range} {n : Node}
  {ns : List Node} {ds : List Dependency} {h : Head} {kind : SpanKind}

theorem text?_node (hn : node dialect next r = .ok (n, ds)) : n.text? = r.text? := by
  cases r with
  | text s =>
    cases hn
    rfl
  | node kind children =>
    have hcontainer (kind : SpanKind) (ns : List Node) : (container kind ns).text? = none := by
      cases kind <;> rfl
    cases kind with
    | conditional =>
      rw [node] at hn
      obtain ⟨head, -, hn⟩ := bind_eq_ok_iff.mp hn
      obtain ⟨⟨ns, inner⟩, -, hn⟩ := bind_eq_ok_iff.mp hn
      cases hn
      rfl
    | insert =>
      rw [node] at hn
      obtain ⟨d, -, hn⟩ := bind_eq_ok_iff.mp hn
      cases hn
      rfl
    | rawScript =>
      cases hn
      rfl
    | lineBreak =>
      cases hn
      rfl
    | horizontalRule =>
      cases hn
      rfl
    | _ =>
      simp only [node] at hn
      obtain ⟨⟨ns, ds⟩, -, hn⟩ := bind_eq_ok_iff.mp hn
      cases hn
      exact hcontainer _ ns

theorem text?_nodesOf (hns : nodesOf dialect next rs = .ok (ns, ds)) :
    ns.map Node.text? = rs.map Range.text? := by
  induction rs generalizing next ns ds with
  | nil =>
    cases hns
    rfl
  | cons r rs ih =>
    obtain ⟨n, first, ms, later, hn, hms, rfl, rfl⟩ := nodesOf_cons hns
    rw [List.map_cons, List.map_cons, text?_node hn, ih hms]

theorem exists_range_of_mem (hns : nodesOf dialect next rs = .ok (ns, ds)) (hn : n ∈ ns) :
    ∃ r ∈ rs, ∃ k ds, node dialect k r = .ok (n, ds) := by
  induction rs generalizing next ns ds with
  | nil =>
    cases hns
    cases hn
  | cons r rs ih =>
    obtain ⟨m, first, ms, later, hm, hms, rfl, rfl⟩ := nodesOf_cons hns
    rcases List.mem_cons.mp hn with rfl | hn
    · exact ⟨r, List.mem_cons_self, next, first, hm⟩
    · obtain ⟨r', hr', hnode⟩ := ih hms hn
      exact ⟨r', List.mem_cons_of_mem _ hr', hnode⟩

theorem headAt_taken (hh : headAt dialect children = .ok h) :
    ∃ k s, h.taken = k + 1 ∧ children[k]? = some (.text s) := by
  unfold headAt at hh
  split at hh
  · rename_i s rest
    split at hh
    · cases hh
    · split at hh
      · cases hh
      · obtain ⟨logic, -, rfl⟩ := map_eq_ok_iff.mp hh
        exact ⟨0, s, rfl, rfl⟩
  · rename_i inner s rest
    split at hh
    · cases hh
    · cases hh
      exact ⟨1, s, rfl, rfl⟩
  · cases hh

theorem head_taken (hh : head dialect children = .ok h) :
    ∃ k s, h.taken = k + 1 ∧ children[k]? = some (.text s) := by
  unfold head at hh
  split at hh
  · split at hh
    · obtain ⟨h', hh', rfl⟩ := map_eq_ok_iff.mp hh
      obtain ⟨k, s, hk, hs⟩ := headAt_taken hh'
      exact ⟨k + 1, s, by rw [hk], hs⟩
    · exact headAt_taken hh
  · exact headAt_taken hh

theorem isEmptyText_eq (n : Node) : isEmptyText n = (n.text? == some "") := by
  cases n with
  | text s =>
    rw [Bool.eq_iff_iff]
    simp [isEmptyText, Node.text?]
  | _ => rfl

theorem isSome_trimFirst (ns : List Node) :
    ((trimFirst ns).map Node.text?).map Option.isSome =
      (ns.map Node.text?).map Option.isSome := by
  unfold trimFirst
  split <;> rfl

theorem isSome_trimLast (ns : List Node) :
    ((trimLast ns).map Node.text?).map Option.isSome =
      (ns.map Node.text?).map Option.isSome := by
  fun_induction trimLast ns with
  | case1 => rfl
  | case2 s => rfl
  | case3 n rest hne ih => simpa using ih

theorem filled_body : ∀ n ∈ body h ns, n.text? ≠ some "" := by
  intro n hn
  have hn := (List.mem_filter.mp hn).2
  simpa [isEmptyText_eq] using hn

/-- The text after a conditional's head stands where the head ended in a text, so no other
follows it. -/
theorem apart_body {k : Nat} {s : String} (htaken : h.taken = k + 1)
    (hs : (ns.map Node.text?)[k]? = some (some s)) (hns : Apart (ns.map Node.text?)) :
    Apart ((body h ns).map Node.text?) := by
  have hlast : Apart (some s :: (ns.drop h.taken).map Node.text?) := by
    obtain ⟨hlt, hget⟩ := List.getElem?_eq_some_iff.mp hs
    have hdrop := List.IsChain.drop hns k
    rwa [List.drop_eq_getElem_cons hlt, hget, ← List.map_drop, ← htaken] at hdrop
  have hwhole : Apart ((Node.text h.rest :: ns.drop h.taken).map Node.text?) := by
    apply hlast.of_isSome
    rfl
  have htrimmed :
      Apart ((trimLast (trimFirst (.text h.rest :: ns.drop h.taken))).map Node.text?) := by
    apply hwhole.of_isSome
    rw [isSome_trimLast, isSome_trimFirst]
  have hfilter := htrimmed.filter
  rw [List.filter_map] at hfilter
  rw [body]
  convert hfilter using 4
  rename_i n
  rw [isEmptyText_eq]
  rfl

/-- Siblings in a paragraph or in an inline span. -/
structure Line (ns : List Node) : Prop where
  filled : ∀ n ∈ ns, n.text? ≠ some ""
  apart : Apart (ns.map Node.text?)
  inline : ∀ n ∈ ns, n.Inline

theorem line_of_nodesOf (hfilled : ∀ r ∈ rs, r.text? ≠ some "")
    (hapart : Apart (rs.map Range.text?))
    (hinline : ∀ r ∈ rs, ∀ k n ds, node dialect k r = .ok (n, ds) → n.Inline)
    (hns : nodesOf dialect next rs = .ok (ns, ds)) : Line ns := by
  refine ⟨?_, by rw [text?_nodesOf hns]; exact hapart, ?_⟩
  · intro n hn hempty
    have hmem : some "" ∈ ns.map Node.text? := List.mem_map.mpr ⟨n, hn, hempty⟩
    rw [text?_nodesOf hns] at hmem
    obtain ⟨r, hr, hr'⟩ := List.mem_map.mp hmem
    exact hfilled r hr hr'
  · intro n hn
    obtain ⟨r, hr, k, ds, hnode⟩ := exists_range_of_mem hns hn
    exact hinline r hr k n ds hnode

theorem Line.neat_styled (hl : Line ns) (hne : ns ≠ []) (style : Style) :
    (Node.styled style ns).Neat := by
  refine ⟨hl.filled, hl.apart, ?_⟩
  rintro _ _ ⟨⟩
  exact hne

def style? : SpanKind → Option Style
  | .paragraph => some .paragraph
  | .quotation => some .quotation
  | .attribution => some .attribution
  | .heading => some .heading
  | .emphasis => some .emphasis
  | .strongEmphasis => some .strongEmphasis
  | .hidden => some .hidden
  | _ => none

theorem node_of_style {style : Style} (hs : style? kind = some style)
    (hn : node dialect next (.node kind children) = .ok (n, ds)) :
    ∃ ns, nodesOf dialect next children = .ok (ns, ds) ∧ n = .styled style ns ∧
      n.isBlock = SpanKind.document.admits (some kind) := by
  cases kind <;> cases hs <;>
  · simp only [node] at hn
    obtain ⟨⟨ns, ds⟩, hns, hn⟩ := bind_eq_ok_iff.mp hn
    cases hn
    exact ⟨ns, hns, rfl, rfl⟩

theorem admits_paragraph {inner : Option SpanKind} (hk : kind ≠ .document)
    (hi : kind.admits inner = true) : SpanKind.paragraph.admits inner = true := by
  cases inner with
  | none => rfl
  | some inner => cases kind <;> simp_all [SpanKind.admits]

theorem admits_document (hk : SpanKind.paragraph.admits (some kind) = true) :
    SpanKind.document.admits (some kind) = false := by
  revert hk
  cases kind <;> decide

theorem inline_conditional {k : Nat} {s : String} (hl : Line ns) (htaken : h.taken = k + 1)
    (hs : (ns.map Node.text?)[k]? = some (some s)) :
    (Node.conditional next (body h ns)).Inline := by
  refine Node.forall_within_iff.mpr
    ⟨⟨⟨filled_body, apart_body htaken hs hl.apart, ?_⟩, rfl, rfl⟩, ?_⟩
  · intro style children heq
    cases heq
  · intro c hc
    rcases mem_body hc with hc | ⟨s, rfl⟩
    · exact hl.inline c hc
    · exact Node.inline_leaf rfl (by simp) rfl rfl

theorem shape_of_tidied (hr : r.Tidied) (hn : node dialect next r = .ok (n, ds)) :
    (SpanKind.paragraph.admits r.kind? = true → n.Inline) ∧
      (SpanKind.document.admits r.kind? = true → n.Block) := by
  induction hr generalizing next n ds with
  | text s =>
    cases hn
    exact ⟨fun _ => Node.inline_leaf rfl (by simp) rfl rfl, fun hd => Bool.noConfusion hd⟩
  | @node kind children admitted filled apart kept inner ih =>
    -- In spans other than the document, everything may stand in a paragraph.
    have hline (hk : kind ≠ .document) {next : Nat} {ns : List Node} {ds : List Dependency}
        (hns : nodesOf dialect next children = .ok (ns, ds)) : Line ns := by
      apply line_of_nodesOf filled apart _ hns
      intro r hr k n ds hnode
      exact (ih r hr hnode).1 (admits_paragraph hk (admitted r hr))
    cases hstyle : style? kind with
    | some style =>
      obtain ⟨ns, hns, rfl, hblock⟩ := node_of_style hstyle hn
      have hl : Line ns := hline (by rintro rfl; cases hstyle) hns
      have hchildren : children ≠ [] := by
        rcases kept with rfl | hsingle | hne
        · cases hstyle
        · cases kind <;> simp [style?, SpanKind.isSingle] at hstyle hsingle
        · exact hne
      have hne : ns ≠ [] := by
        rintro rfl
        exact hchildren (List.map_eq_nil_iff.mp (text?_nodesOf hns).symm)
      have hneat := hl.neat_styled hne style
      constructor
      · intro hp
        refine Node.forall_within_iff.mpr ⟨⟨hneat, ?_, rfl⟩, hl.inline⟩
        exact hblock.trans (admits_document hp)
      · intro hd
        exact ⟨hblock.trans hd, hneat, hl.inline⟩
    | none =>
      cases kind with
      | conditional =>
        rw [node] at hn
        obtain ⟨head, hhead, hn⟩ := bind_eq_ok_iff.mp hn
        obtain ⟨⟨ns, inner⟩, hns, hn⟩ := bind_eq_ok_iff.mp hn
        cases hn
        obtain ⟨k, s, htaken, hs⟩ := head_taken hhead
        have hs' : (ns.map Node.text?)[k]? = some (some s) := by
          rw [text?_nodesOf hns, List.getElem?_map, hs]
          rfl
        exact ⟨fun _ => inline_conditional (hline (by simp) hns) htaken hs',
          fun hd => Bool.noConfusion hd⟩
      | insert =>
        rw [node] at hn
        obtain ⟨d, -, hn⟩ := bind_eq_ok_iff.mp hn
        cases hn
        exact ⟨fun _ => Node.inline_leaf rfl (by simp) rfl rfl, fun hd => Bool.noConfusion hd⟩
      | rawScript =>
        cases hn
        exact ⟨fun _ => Node.inline_leaf rfl (by simp) rfl rfl, fun hd => Bool.noConfusion hd⟩
      | lineBreak =>
        cases hn
        exact ⟨fun _ => Node.inline_leaf rfl (by simp) rfl rfl, fun hd => Bool.noConfusion hd⟩
      | horizontalRule =>
        cases hn
        refine ⟨fun hp => Bool.noConfusion hp, fun _ => ⟨rfl, ?_, by simp [Node.children]⟩⟩
        exact Node.neat_of_children_eq_nil rfl (by simp)
      | document => exact ⟨fun hp => Bool.noConfusion hp, fun hd => Bool.noConfusion hd⟩
      | _ => cases hstyle

end Extract

namespace Node

def Below (m n : Node) : Prop := ∃ c ∈ n.children, m.Within c

def tops : Node → List Node
  | sequence children => children
  | n => [n]

/-- The shape of the root of compiled content, with or without paragraphs. -/
structure WellShaped (collect : Bool) (root : Node) : Prop where
  sequences : ∀ m : Node, m.Below root → m.isSequence = false
  several : ∀ children, root = sequence children → children.length ≠ 1
  texts : ∀ s, (text s).Within root → s ≠ ""
  apart : ∀ m : Node, m.Within root → Apart (m.children.map text?)
  held : ∀ style children, (styled style children).Within root → children ≠ []
  blocks : collect = true → ∀ n ∈ root.tops, n.isBlock = true ∧ ∀ m : Node, m.Below n →
    m.isBlock = false
  inlines : collect = false → ∀ m : Node, m.Within root → m.isBlock = false

/-- One node stands for itself and any other number of them for their sequence. -/
def Joins (ns : List Node) (root : Node) : Prop :=
  ns = [root] ∨ ns.length ≠ 1 ∧ root = sequence ns

variable {ns : List Node} {root : Node}

theorem ne_empty_of_within {n : Node} {s : String} (hn : n.text? ≠ some "")
    (hneat : ∀ m : Node, m.Within n → m.Neat) (hs : (text s).Within n) : s ≠ "" := by
  rintro rfl
  induction hs with
  | self => exact hn rfl
  | @child c parent mem within ih =>
    apply ih ((hneat parent .self).filled c mem)
    intro m hm
    exact hneat m (.child mem hm)

theorem wellShaped_of_neat {collect : Bool} (hneat : ∀ m : Node, m.Within root → m.Neat)
    (htext : root.text? ≠ some "")
    (hsequences : ∀ m : Node, m.Below root → m.isSequence = false)
    (hseveral : ∀ children, root = sequence children → children.length ≠ 1)
    (hblocks : collect = true →
      ∀ n ∈ root.tops, n.isBlock = true ∧ ∀ m : Node, m.Below n → m.isBlock = false)
    (hinlines : collect = false → ∀ m : Node, m.Within root → m.isBlock = false) :
    WellShaped collect root where
  sequences := hsequences
  several := hseveral
  texts _ hs := ne_empty_of_within htext hneat hs
  apart m hm := (hneat m hm).apart
  held style children hm := (hneat _ hm).held style children rfl
  blocks := hblocks
  inlines := hinlines

theorem Joins.wellShaped {collect : Bool} (hj : Joins ns root)
    (hfilled : ∀ n ∈ ns, n.text? ≠ some "") (hapart : Apart (ns.map text?))
    (hsound : ∀ n ∈ ns, ∀ m : Node, m.Within n → m.Neat ∧ m.isSequence = false)
    (hblocks : collect = true → ∀ n ∈ ns, n.isBlock = true ∧ ∀ m : Node, m.Below n →
      m.isBlock = false)
    (hinlines : collect = false → ∀ n ∈ ns, ∀ m : Node, m.Within n → m.isBlock = false) :
    WellShaped collect root := by
  rcases hj with rfl | ⟨hlen, rfl⟩
  · have hroot := hsound root List.mem_cons_self
    have hseq := (hroot root .self).2
    have htops : root.tops = [root] := by
      cases root with
      | sequence children => cases hseq
      | _ => rfl
    apply wellShaped_of_neat (fun m hm => (hroot m hm).1) (hfilled root List.mem_cons_self)
    · intro m ⟨c, hc, hm⟩
      exact (hroot m (.child hc hm)).2
    · rintro children rfl
      cases hseq
    · rw [htops]
      exact hblocks
    · intro hc
      exact hinlines hc root List.mem_cons_self
  · apply wellShaped_of_neat _ (by simp [text?])
    · intro m ⟨n, hn, hm⟩
      exact (hsound n hn m hm).2
    · rintro _ ⟨⟩
      exact hlen
    · exact hblocks
    · intro hc
      rw [forall_within_iff]
      exact ⟨rfl, hinlines hc⟩
    · rw [forall_within_iff]
      refine ⟨⟨hfilled, hapart, ?_⟩, fun n hn m hm => (hsound n hn m hm).1⟩
      intro style children heq
      cases heq

theorem Joins.wellShaped_line (hj : Joins ns root) (hl : Extract.Line ns) :
    WellShaped false root := by
  apply hj.wellShaped hl.filled hl.apart
  · intro n hn m hm
    obtain ⟨hneat, -, hseq⟩ := hl.inline n hn m hm
    exact ⟨hneat, hseq⟩
  · intro hc
    cases hc
  · intro _ n hn m hm
    exact (hl.inline n hn m hm).2.1

theorem Joins.wellShaped_blocks (hj : Joins ns root) (hb : ∀ n ∈ ns, n.Block) :
    WellShaped true root := by
  have htext (n : Node) (hn : n ∈ ns) : n.text? = none := by
    have hblock := (hb n hn).block
    cases n with
    | text s => cases hblock
    | _ => rfl
  apply hj.wellShaped
  · intro n hn
    simp [htext n hn]
  · apply Apart.of_forall_none
    intro text ht
    obtain ⟨n, hn, rfl⟩ := List.mem_map.mp ht
    exact htext n hn
  · intro n hn
    rw [forall_within_iff]
    refine ⟨⟨(hb n hn).neat, ?_⟩, ?_⟩
    · have hblock := (hb n hn).block
      cases n with
      | sequence children => cases hblock
      | _ => rfl
    · intro c hc m hm
      obtain ⟨hneat, -, hseq⟩ := (hb n hn).inner c hc m hm
      exact ⟨hneat, hseq⟩
  · intro _ n hn
    refine ⟨(hb n hn).block, ?_⟩
    intro m ⟨c, hc, hm⟩
    exact ((hb n hn).inner c hc m hm).2.1
  · intro hc
    cases hc

end Node

namespace Extract

theorem joins_rootOf_true (top : List Node) : Node.Joins top (rootOf true top) := by
  cases top with
  | nil => exact .inr ⟨by simp, rfl⟩
  | cons n rest =>
    cases rest with
    | nil => exact .inl rfl
    | cons m rest => exact .inr ⟨by simp, rfl⟩

theorem joins_rootOf_paragraph (ns : List Node) :
    Node.Joins ns (rootOf false [.styled .paragraph ns]) := by
  cases ns with
  | nil => exact .inr ⟨by simp, rfl⟩
  | cons n rest =>
    cases rest with
    | nil => exact .inl rfl
    | cons m rest => exact .inr ⟨by simp, rfl⟩

end Extract

namespace Range

theorem tidy_document (parts : List Range) :
    (node .document parts).tidy =
      some (node .document (tidyTexts .document (tidyAll parts))) := by
  rw [tidy]
  simp [SpanKind.isSingle]

/-- A paragraph alone in the document stays alone, unless nothing is left of it. -/
theorem tidy_paragraph (children : List Range) :
    tidyTexts .document (tidyAll [node .paragraph children]) = [] ∨
      ∃ kept, tidyTexts .document (tidyAll [node .paragraph children]) =
        [node .paragraph kept] := by
  rw [tidyAll]
  split
  · rename_i kept hkept
    have hkind := kind?_tidy hkept
    cases kept with
    | text s => cases hkind
    | node kind inner =>
      cases hkind
      exact .inr ⟨inner, rfl⟩
  · exact .inl rfl

end Range

namespace Content

variable {dialect : Dialect Category} {maxSteps maxDepth : Nat} {source : String}
  {collect : Bool}
  {content : Content}

theorem wellShaped_of_compile
    (h : compile dialect maxSteps maxDepth source collect = .ok content) :
    content.root.WellShaped collect := by
  obtain ⟨tokens, htokens, h⟩ := bind_eq_ok_iff.mp h
  obtain ⟨events, hevents, h⟩ := bind_eq_ok_iff.mp h
  obtain ⟨tree, htree, h⟩ := bind_eq_ok_iff.mp h
  obtain ⟨⟨top, ds⟩, htop, h⟩ := bind_eq_ok_iff.mp h
  cases h
  replace htokens := eq_ok_of_mapError htokens
  replace hevents := eq_ok_of_mapError hevents
  replace htree := eq_ok_of_mapError htree
  obtain ⟨parts, rfl, hparts⟩ := Range.document_of_tokens hevents htree
  rw [Range.tidy_document] at htop
  dsimp only at htop
  -- All that is left in the document are blocks.
  have hblocks : ∀ n ∈ top, n.Block := by
    cases hparts.wellNested.tidied _ (Range.tidy_document parts) with
    | node admitted filled apart kept inner =>
      intro n hn
      obtain ⟨r, hr, k, ds, hnode⟩ := Extract.exists_range_of_mem htop hn
      exact (Extract.shape_of_tidied (inner r hr) hnode).2 (admitted r hr)
  cases collect with
  | true => exact (Extract.joins_rootOf_true top).wellShaped_blocks hblocks
  | false =>
    obtain ⟨children, hparagraph⟩ :=
      Range.paragraph_of_tokens hevents htree (Feature.isInline_of_scan htokens)
    cases hparagraph
    rcases Range.tidy_paragraph children with hnil | ⟨kept, hkept⟩
    · rw [hnil] at htop
      cases htop
      exact Node.Joins.wellShaped_line (.inr ⟨by simp, rfl⟩) ⟨by simp, .nil, by simp⟩
    · rw [hkept] at htop
      obtain ⟨n, first, ms, later, hn, hms, rfl, rfl⟩ := Extract.nodesOf_cons htop
      cases hms
      obtain ⟨ns, -, rfl, -⟩ := Extract.node_of_style rfl hn
      have hblock := hblocks _ List.mem_cons_self
      exact (Extract.joins_rootOf_paragraph ns).wellShaped_line
        ⟨hblock.neat.filled, hblock.neat.apart, hblock.inner⟩

end Content

namespace Compiler

/-- Compiled content is well shaped, whatever its source, the limits and whether paragraphs are
collected. -/
theorem wellShaped_of_compileContent (c : Compiler) (source : String) (collect : Bool)
    (content : Content) (h : c.compileContent source collect = .ok content) :
    content.root.WellShaped collect :=
  Content.wellShaped_of_compile h

/-- Emphasis closed out of order, a rule between paragraphs, a quotation and a conditional. -/
theorem wellShaped_quotation :
    ∃ content, compileContent ⟨Limits.standard⟩
        "*a [**b* ]c**\n---\n> [?\x7b!x!\x7d: d ?]" true = .ok content ∧
      content.root.WellShaped true := by
  have hok : (compileContent ⟨Limits.standard⟩
      "*a [**b* ]c**\n---\n> [?\x7b!x!\x7d: d ?]" true).toBool = true := by
    decide +kernel
  cases h : compileContent ⟨Limits.standard⟩
    "*a [**b* ]c**\n---\n> [?\x7b!x!\x7d: d ?]" true with
  | error e => simp [h, Except.toBool] at hok
  | ok content => exact ⟨content, rfl, wellShaped_of_compileContent _ _ _ content h⟩

end Compiler

end Fabula
