import Fabula.Proofs.Markup.Spans
import Fabula.Proofs.Content.Shape

namespace Fabula

namespace SpanKind

/-- The kind of dependency that a span has. -/
def dependency? : SpanKind → Option DependencyKind
  | conditional => some .predicate
  | insert => some .insert
  | _ => none

/-- Whether a span has a dependency. -/
def isLogic (kind : SpanKind) : Bool := kind.dependency?.isSome

theorem filterMap_dependency? (kinds : List SpanKind) :
    (kinds.filter isInline).filterMap dependency? = kinds.filterMap dependency? := by
  rw [List.filterMap_filter]
  apply List.filterMap_congr
  intro kind _
  cases kind <;> rfl

end SpanKind

namespace Extract

variable {dialect : Dialect Category} {next : Nat} {r : Range}
  {rs children : List Range} {n : Node}
  {ns : List Node} {d : Dependency} {ds : List Dependency}

def dependenciesOf (rs : List Range) : List DependencyKind :=
  (Range.kindsOf rs).filterMap SpanKind.dependency?

theorem dependenciesOf_cons (r : Range) (rs : List Range) :
    dependenciesOf (r :: rs) = dependenciesOf [r] ++ dependenciesOf rs := by
  have happend := Range.kindsOf_append [r] rs
  rw [List.singleton_append] at happend
  rw [dependenciesOf, happend, List.filterMap_append]
  rfl

theorem dependenciesOf_silent (hs : ∀ r ∈ rs, Silent r) (ht : ∀ r ∈ rs, r.Tidied) :
    dependenciesOf rs = [] := by
  induction rs with
  | nil => rfl
  | cons r rs ih =>
    obtain ⟨hr, hrs⟩ := List.forall_mem_cons.mp hs
    obtain ⟨htidied, hts⟩ := List.forall_mem_cons.mp ht
    rw [dependenciesOf_cons, ih hrs hts, List.append_nil]
    cases htidied with
    | text s => rfl
    | node admitted filled apart kept inner =>
      cases hr
      rw [dependenciesOf, Range.kindsOf_node, (Range.kindsOf_eq_nil admitted).1]
      rfl

theorem insertion_silent (hd : insertion dialect children = .ok d) :
    ∀ r ∈ children, Silent r := by
  intro r hr
  cases r with
  | text s => trivial
  | node kind inner =>
    have hmem : .node kind inner ∈ children.filter (!isBlankRange ·) :=
      List.mem_filter.mpr ⟨hr, rfl⟩
    unfold insertion at hd
    split at hd
    all_goals simp_all [Silent]

theorem kinds_nodesOf
    (h : ∀ r ∈ rs, ∀ k n ds, node dialect k r = .ok (n, ds) →
      ds.map Dependency.kind = dependenciesOf [r])
    (hns : nodesOf dialect next rs = .ok (ns, ds)) :
    ds.map Dependency.kind = dependenciesOf rs := by
  induction rs generalizing next ns ds with
  | nil =>
    cases hns
    rfl
  | cons r rs ih =>
    obtain ⟨n, first, ms, later, hn, hms, rfl, rfl⟩ := nodesOf_cons hns
    obtain ⟨hr, hrs⟩ := List.forall_mem_cons.mp h
    rw [List.map_append, hr _ _ _ hn, ih hrs hms, dependenciesOf_cons r rs]

theorem kinds_node (hr : r.Tidied) (hn : node dialect next r = .ok (n, ds)) :
    ds.map Dependency.kind = dependenciesOf [r] := by
  induction hr generalizing next n ds with
  | text s =>
    cases hn
    rfl
  | @node kind children admitted filled apart kept inner ih =>
    have hchildren {next : Nat} {ns : List Node} {ds : List Dependency}
        (hns : nodesOf dialect next children = .ok (ns, ds)) :
        ds.map Dependency.kind = dependenciesOf children :=
      kinds_nodesOf (fun r hr k n ds hnode => ih r hr hnode) hns
    have hsplit :
        dependenciesOf [.node kind children] =
          kind.dependency?.toList ++ dependenciesOf children := by
      rw [dependenciesOf, Range.kindsOf_node, Range.kindsOf_nil, List.append_nil,
        List.filterMap_cons]
      cases kind.dependency? <;> rfl
    rw [hsplit]
    cases kind with
    | conditional =>
      rw [node] at hn
      obtain ⟨h, -, hn⟩ := bind_eq_ok_iff.mp hn
      obtain ⟨⟨ns, inner⟩, hns, hn⟩ := bind_eq_ok_iff.mp hn
      cases hn
      rw [List.map_cons, hchildren hns]
      rfl
    | insert =>
      rw [node] at hn
      obtain ⟨d, hd, hn⟩ := bind_eq_ok_iff.mp hn
      cases hn
      rw [dependenciesOf_silent (insertion_silent hd) inner, List.map_singleton,
        (insertion_sound hd).1]
      rfl
    | rawScript =>
      cases hn
      rw [dependenciesOf, (Range.kindsOf_eq_nil admitted).1]
      rfl
    | lineBreak =>
      cases hn
      rw [Range.eq_nil_of_isSingle rfl admitted]
      rfl
    | horizontalRule =>
      cases hn
      rw [Range.eq_nil_of_isSingle rfl admitted]
      rfl
    | _ =>
      simp only [node] at hn
      obtain ⟨⟨ns, inner⟩, hns, hn⟩ := bind_eq_ok_iff.mp hn
      cases hn
      exact hchildren hns

end Extract

namespace Event

variable {kinds : List SpanKind} {events : List Event}

theorem countP_opens {e : Event} (he : e.Apt) :
    (e.opens kinds).countP SpanKind.isLogic =
      [e].count (.start .conditional) + [e].count (.start .insert) +
        (e.reopens kinds).countP SpanKind.isLogic := by
  cases e with
  | text s => rfl
  | start kind => cases kind <;> rfl
  | stop kind => exact (Nat.zero_add _).symm
  | single kind =>
    have hlogic : kind.isLogic = false := by
      revert he
      cases kind <;> simp [Apt, SpanKind.isSingle, SpanKind.isLogic, SpanKind.dependency?]
    simp [opens, reopens, hlogic]

theorem countP_along (he : ∀ e ∈ events, e.Apt) :
    (along opens kinds events).countP SpanKind.isLogic =
      events.count (.start .conditional) + events.count (.start .insert) +
        (along reopens kinds events).countP SpanKind.isLogic := by
  induction events generalizing kinds with
  | nil => rfl
  | cons e events ih =>
    obtain ⟨hapt, hrest⟩ := List.forall_mem_cons.mp he
    rw [along, along, List.countP_append, List.countP_append, countP_opens hapt, ih hrest,
      List.count_singleton, List.count_singleton, List.count_cons, List.count_cons]
    omega

end Event

namespace Range

variable {tokens : List (Token Feature)} {events : List Event} {maxDepth : Nat} {tree : Range}

/-- The kind of dependency that a range has, apart from those inside it. -/
def dependency? (r : Range) : Option DependencyKind := r.kind?.bind SpanKind.dependency?

/-- Whether a range is a conditional or an insert. -/
def isLogic (r : Range) : Bool := r.dependency?.isSome

theorem countP_spans (h : Event.ofTokens tokens = .ok events)
    (ht : ofEvents maxDepth events = .ok tree) :
    tree.spans.countP isLogic =
      events.count (.start .conditional) + events.count (.start .insert) +
      (Event.along Event.reopens [] events).countP SpanKind.isLogic := by
  have hkinds :
      tree.spans.filterMap kind? = .document :: Event.along Event.opens [] events := by
    rw [← kindsOf_ofEvents ht, kindsOf, spansOf, spansOf, List.append_nil]
  calc tree.spans.countP isLogic
      = ((tree.spans.filterMap kind?).filterMap SpanKind.dependency?).length := by
        rw [List.filterMap_filterMap, List.length_filterMap_eq_countP]
        rfl
    _ = (Event.along Event.opens [] events).countP SpanKind.isLogic := by
        rw [hkinds, List.length_filterMap_eq_countP]
        rfl
    _ = _ := Event.countP_along (Event.apt_of_tokens h)

end Range

namespace Content

variable {dialect : Dialect Category}

theorem kinds_of_document {parts : List Range} {top : List Node} {ds : List Dependency}
    (hparts : SpanKind.document.Holds parts)
    (h : Extract.nodesOf dialect 0 (Range.tidyTexts .document (Range.tidyAll parts)) =
      .ok (top, ds)) :
    ds.map Dependency.kind =
      ((Range.node .document parts).spans.filter (!·.isHollow)).filterMap
        Range.dependency? := by
  have hsifted := hparts.wellNested.sifted
  rw [Range.Sifted, Range.tidy_document, Option.toList_some] at hsifted
  cases hparts.wellNested.tidied _ (Range.tidy_document parts) with
  | node admitted filled apart kept inner =>
    calc ds.map Dependency.kind
        = Extract.dependenciesOf (Range.tidyTexts .document (Range.tidyAll parts)) :=
          Extract.kinds_nodesOf (fun r hr k n ds hn => Extract.kinds_node (inner r hr) hn) h
      _ = Extract.dependenciesOf
        [.node .document (Range.tidyTexts .document (Range.tidyAll parts))] := by
          rw [Extract.dependenciesOf, Extract.dependenciesOf, Range.kindsOf_node,
            Range.kindsOf_nil, List.append_nil]
          rfl
      _ = (Range.filledKindsOf [.node .document parts]).filterMap SpanKind.dependency? := by
          rw [Extract.dependenciesOf, ← SpanKind.filterMap_dependency?, hsifted,
            SpanKind.filterMap_dependency?]
      _ = _ := by
          rw [Range.filledKindsOf, Range.spansOf, Range.spansOf, List.append_nil,
            List.filterMap_filterMap]
          rfl

end Content

namespace Compiler

/-- The conditionals and inserts that hold something have one dependency each, in the order in
which they begin. They are those that the events start, and those that are opened again after a
span around them has ended. -/
theorem dependencies_cover_spans (c : Compiler) (source : String) (collect : Bool)
    (content : Content) (h : c.compileContent source collect = .ok content) :
    ∃ tokens events tree,
      (Feature.table collect c.limits.maxLexIterations).scan true source = .ok tokens ∧
      Event.ofTokens tokens = .ok events ∧
        Range.ofEvents c.limits.maxNestingDepth events = .ok tree ∧
      content.dependencies.map Dependency.kind =
        (tree.spans.filter (!·.isHollow)).filterMap Range.dependency? ∧
      content.dependencies.length + (tree.spans.filter Range.isHollow).countP Range.isLogic =
        events.count (.start .conditional) + events.count (.start .insert) +
          (Event.along Event.reopens [] events).countP SpanKind.isLogic := by
  obtain ⟨tokens, htokens, h⟩ := bind_eq_ok_iff.mp h
  obtain ⟨events, hevents, h⟩ := bind_eq_ok_iff.mp h
  obtain ⟨tree, htree, h⟩ := bind_eq_ok_iff.mp h
  obtain ⟨⟨top, ds⟩, htop, h⟩ := bind_eq_ok_iff.mp h
  cases h
  replace htokens := eq_ok_of_mapError htokens
  replace hevents := eq_ok_of_mapError hevents
  replace htree := eq_ok_of_mapError htree
  have hcount := Range.countP_spans hevents htree
  obtain ⟨parts, rfl, hparts⟩ := Range.document_of_tokens hevents htree
  rw [Range.tidy_document] at htop
  dsimp only at htop
  have hkinds := Content.kinds_of_document hparts htop
  have hlength : ds.length =
      ((Range.node .document parts).spans.filter (!·.isHollow)).countP Range.isLogic := by
    rw [← List.length_map Dependency.kind, hkinds, List.length_filterMap_eq_countP]
    rfl
  have hsplit :=
    List.countP_eq_countP_filter_add (Range.node .document parts).spans Range.isLogic
      Range.isHollow
  refine ⟨tokens, events, _, htokens, hevents, htree, hkinds, ?_⟩
  rw [hlength, Nat.add_comm, ← hsplit, hcount]

def cutInsert : String := "[x [+\x7b!a!\x7d]\x7b!b!\x7d+][++]"

theorem cutInsert_covered :
    ∃ content, compileContent ⟨Limits.standard⟩ cutInsert false = .ok content ∧
      content.dependencies.length = 2 ∧
      ∃ tokens events tree,
        (Feature.table false Limits.standard.maxLexIterations).scan true cutInsert =
          .ok tokens ∧
        Event.ofTokens tokens = .ok events ∧
          Range.ofEvents Limits.standard.maxNestingDepth events = .ok tree ∧
        content.dependencies.map Dependency.kind =
          (tree.spans.filter (!·.isHollow)).filterMap Range.dependency? ∧
        content.dependencies.length + (tree.spans.filter Range.isHollow).countP Range.isLogic =
          events.count (.start .conditional) + events.count (.start .insert) +
            (Event.along Event.reopens [] events).countP SpanKind.isLogic := by
  have hlength :
      (compileContent ⟨Limits.standard⟩ cutInsert false).map (·.dependencies.length) =
        .ok 2 := by
    decide +kernel
  obtain ⟨content, hcontent, hlength⟩ := map_eq_ok_iff.mp hlength
  exact ⟨content, hcontent, hlength,
    dependencies_cover_spans _ cutInsert false content hcontent⟩

def logicStarts? (c : Compiler) (source : String) (collect : Bool) : Option Nat := do
  let tokens ← ((Feature.table collect c.limits.maxLexIterations).scan true source).toOption
  let events ← (Event.ofTokens tokens).toOption
  return events.count (.start .conditional) + events.count (.start .insert)

theorem dependencies_ne_logicStarts :
    logicStarts? ⟨Limits.standard⟩ "[++]" false = some 1 ∧
      (compileContent ⟨Limits.standard⟩ "[++]" false).map (·.dependencies.length) = .ok 0 ∧
      logicStarts? ⟨Limits.standard⟩ "[x [+\x7b!a!\x7d]\x7b!b!\x7d+]" false = some 1 ∧
      (compileContent ⟨Limits.standard⟩ "[x [+\x7b!a!\x7d]\x7b!b!\x7d+]" false).map
        (·.dependencies.length) = .ok 2 := by
  decide +kernel

end Compiler

end Fabula
