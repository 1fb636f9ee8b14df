import Fabula.Compiler
import Fabula.Proofs.Content.Numbering

namespace Fabula

section Traversal

variable {engine : Engine} {visits : Visits} {qualities : Qualities}
  {dialect : Dialect Category}
  {σ : Type} {rewrite : String → σ → String × σ} {d : Dependency}

theorem Dependency.resolve_predicate {value : Value} (hk : d.kind = .predicate)
    (hf : d.formatter = none) (h : d.resolve engine visits qualities = .ok value) :
    ∃ b, value = .bool b := by
  obtain ⟨kind, logic, formatter⟩ := d
  cases hk
  cases hf
  cases logic with
  | structured snippet =>
    obtain ⟨v, hv, h⟩ := bind_eq_ok_iff.mp h
    obtain ⟨b, -, rfl⟩ := map_eq_ok_iff.mp hv
    cases h
    exact ⟨b, rfl⟩
  | rawScript source =>
    obtain ⟨v, hv, h⟩ := bind_eq_ok_iff.mp h
    obtain ⟨w, -, rfl⟩ := map_eq_ok_iff.mp hv
    cases h
    exact ⟨w.isTruthy, rfl⟩

structure Dependency.Replaces (dialect : Dialect Category) (d d' : Dependency) : Prop where
  kind : d'.kind = d.kind
  formatter : d'.formatter = d.formatter
  sound : d'.Sound dialect

theorem Dependency.Sound.relink (hd : d.Sound dialect) (state : σ) :
    d.Replaces dialect (d.relink dialect rewrite state).left := by
  unfold Dependency.relink
  split
  · exact ⟨rfl, rfl, fun _ hs => DependencyLogic.noConfusion hs, hd.named⟩
  · rename_i snippet hlogic
    dsimp only
    split
    · rename_i relinked hr
      refine ⟨rfl, rfl, ?_, hd.named⟩
      rintro _ ⟨⟩
      have hroot := (Dialect.compile_eq_ok (hd.compiled snippet hlogic)).2
      rw [(Dialect.compile_eq_ok hr).1, ← hroot]
      exact hr
    · exact ⟨rfl, rfl, hd⟩

theorem Dependency.relinkAll_replaces {ds : List Dependency} (hds : ∀ d ∈ ds, d.Sound dialect)
    (state : σ) :
    List.Forall₂ (Replaces dialect) ds (relinkAll dialect rewrite state ds).left := by
  induction ds generalizing state with
  | nil => exact .nil
  | cons d ds ih =>
    obtain ⟨hd, hds⟩ := List.forall_mem_cons.mp hds
    rw [relinkAll]
    dsimp only
    split
    · exact .cons (hd.relink state) (ih hds _)
    · exact .cons (hd.relink state) (List.forall₂_same.mpr fun d hd => ⟨rfl, rfl, hds d hd⟩)

end Traversal

namespace Content

structure Linked (dialect : Dialect Category) (content : Content) : Prop where
  indices : content.root.dependencyIndices = List.range content.dependencies.length
  agrees : content.root.Agrees content.dependencies
  sound : ∀ d ∈ content.dependencies, d.Sound dialect

variable {dialect : Dialect Category} {content : Content}

theorem rootOf_cases (collect : Bool) (top : List Node) :
    ∃ ns, (ns = top ∨ top = [.styled .paragraph ns]) ∧
      (ns = [Extract.rootOf collect top] ∨ Extract.rootOf collect top = .sequence ns) := by
  unfold Extract.rootOf
  split
  · rename_i children
    refine ⟨children, .inr rfl, ?_⟩
    dsimp only
    split
    · exact .inl rfl
    · exact .inr rfl
  · refine ⟨top, .inl rfl, ?_⟩
    dsimp only
    split
    · exact .inl rfl
    · exact .inr rfl

theorem indices_rootOf (collect : Bool) (top : List Node) :
    (Extract.rootOf collect top).dependencyIndices = Node.indicesOf top := by
  obtain ⟨ns, htop, hroot⟩ := rootOf_cases collect top
  have hns : Node.indicesOf top = Node.indicesOf ns := by
    rcases htop with rfl | rfl
    · rfl
    · simp [Node.indicesOf, Node.dependencyIndices]
  rcases hroot with hroot | hroot
  · rw [hns, hroot]
    simp [Node.indicesOf]
  · rw [hns, hroot, Node.dependencyIndices]

theorem agrees_rootOf {ds : List Dependency} {top : List Node} (h : ∀ n ∈ top, n.Agrees ds)
    (collect : Bool) : (Extract.rootOf collect top).Agrees ds := by
  obtain ⟨ns, htop, hroot⟩ := rootOf_cases collect top
  have hns : ∀ n ∈ ns, n.Agrees ds := by
    rcases htop with rfl | rfl
    · exact h
    · exact (Node.agrees_iff.mp (h _ List.mem_cons_self)).2
  rcases hroot with hroot | hroot
  · exact hns _ (by rw [hroot]; exact List.mem_singleton_self _)
  · rw [hroot]
    exact Node.agrees_iff.mpr ⟨trivial, hns⟩

theorem linked_of_compile {maxSteps maxDepth : Nat} {source : String} {collect : Bool}
    (h : compile dialect maxSteps maxDepth source collect = .ok content) :
    content.Linked dialect := by
  obtain ⟨tokens, -, h⟩ := bind_eq_ok_iff.mp h
  obtain ⟨events, -, h⟩ := bind_eq_ok_iff.mp h
  obtain ⟨tree, -, h⟩ := bind_eq_ok_iff.mp h
  obtain ⟨⟨top, ds⟩, htop, h⟩ := bind_eq_ok_iff.mp h
  cases h
  have hn := Extract.nodesOf_numbered dialect 0 _ top ds htop
  refine ⟨?_, ?_, hn.sound⟩
  · rw [indices_rootOf, hn.indices, List.range_eq_range']
  · exact agrees_rootOf (by simpa using hn.agrees [] [] rfl) collect

theorem Linked.replace {ds : List Dependency} (h : content.Linked dialect)
    (hds : List.Forall₂ (Dependency.Replaces dialect) content.dependencies ds) :
    Linked dialect ⟨content.root, ds⟩ := by
  refine ⟨by rw [h.indices, hds.length_eq], fun m hm => ?_, fun d' hd' => ?_⟩
  · have hrefers := h.agrees m hm
    cases m with
    | conditional i children =>
      obtain ⟨d, hi, hk, hf⟩ := hrefers
      obtain ⟨d', hi', hr⟩ := exists_getElem?_of_forall₂ hds hi
      exact ⟨d', hi', hr.kind.trans hk, hr.formatter.trans hf⟩
    | insert i =>
      obtain ⟨d, hi, hk⟩ := hrefers
      obtain ⟨d', hi', hr⟩ := exists_getElem?_of_forall₂ hds hi
      exact ⟨d', hi', hr.kind.trans hk⟩
    | _ => trivial
  · obtain ⟨d, -, hr⟩ := exists_mem_of_forall₂ hds hd'
    exact hr.sound

theorem Linked.relink {σ : Type} (h : content.Linked dialect)
    (rewrite : String → σ → String × σ) (state : σ) :
    (content.relink dialect rewrite state).left.Linked dialect := by
  rw [Content.relink]
  split
  · exact h.replace (Dependency.relinkAll_replaces h.sound state)
  · exact h

theorem Linked.resolve {engine : Engine} {visits : Visits} {qualities : Qualities}
    {values : List Value} (h : content.Linked dialect)
    (hr : content.resolve engine visits qualities = .ok values) :
    values.length = content.dependencies.length ∧
      ∀ i children, (Node.conditional i children).Within content.root →
        ∃ b, values[i]? = some (.bool b) := by
  refine ⟨(mapM_eq_ok_iff.mp hr).length_eq.symm, fun i children hw => ?_⟩
  obtain ⟨d, hi, hk, hf⟩ := h.agrees _ hw
  obtain ⟨value, hv, hd⟩ := exists_getElem?_of_forall₂ (mapM_eq_ok_iff.mp hr) hi
  obtain ⟨b, rfl⟩ := Dependency.resolve_predicate hk hf hd
  exact ⟨b, hv⟩

end Content

namespace Compiler

/-- The contents that relinks leave of one, each by a rewrite of its own from any state, whether
it succeeds or fails. -/
inductive Leaves (c : Compiler) (first : Content) : Content → Prop where
  | compiled : Leaves c first first
  | relinked {σ : Type} {content : Content} (earlier : Leaves c first content)
      (rewrite : String → σ → String × σ) (state : σ) :
      Leaves c first (c.relink rewrite state content).left

theorem Leaves.linked {c : Compiler} {first content : Content} (h : c.Leaves first content)
    (hfirst : first.Linked c.dialect) : content.Linked c.dialect := by
  induction h with
  | compiled => exact hfirst
  | relinked earlier rewrite state ih => exact ih.relink rewrite state

/-- Content whose tree refers to each of its dependencies once, in order and by the right kind
of node, whose logic is that of its sources, and which resolves to truth values where the tree
asks for them. -/
structure Upholds (c : Compiler) (content : Content) : Prop where
  indices : content.root.dependencyIndices = List.range content.dependencies.length
  conditionals : ∀ i children, (Node.conditional i children).Within content.root →
    ∃ d, content.dependencies[i]? = some d ∧ d.kind = .predicate ∧ d.formatter = none
  inserts : ∀ i, (Node.insert i).Within content.root →
    ∃ d, content.dependencies[i]? = some d ∧ d.kind = .insert
  compiled : ∀ d ∈ content.dependencies, ∀ snippet, d.logic = .structured snippet →
    c.compileLogic snippet.source d.kind.root = .ok snippet
  formatters : ∀ d ∈ content.dependencies, ∀ name, d.formatter = some name → FormatterName name
  resolved : ∀ engine visits qualities values,
    content.resolve engine visits qualities = .ok values →
      values.length = content.dependencies.length ∧
        ∀ i children, (Node.conditional i children).Within content.root →
          ∃ b, values[i]? = some (.bool b)

/-- Compiled content stays consistent through any number of relinks, whether they succeed or
fail. -/
theorem upholds_of_compileContent (c : Compiler) (source : String) (collect : Bool)
    (first : Content) (h : c.compileContent source collect = .ok first) (content : Content)
    (hleaves : c.Leaves first content) : c.Upholds content := by
  have hl := hleaves.linked (Content.linked_of_compile h)
  exact
    { indices := hl.indices
      conditionals := fun i children hw => hl.agrees (.conditional i children) hw
      inserts := fun i hw => hl.agrees (.insert i) hw
      compiled := fun d hd => (hl.sound d hd).compiled
      formatters := fun d hd => (hl.sound d hd).named
      resolved := fun _ _ _ _ hr => hl.resolve hr }

theorem upholds_conditional_insert :
    ∃ first, compileContent ⟨Limits.standard⟩ "[?\x7b!x!\x7d:[+b:c+]?]" false = .ok first ∧
      Upholds ⟨Limits.standard⟩
        (relink ⟨Limits.standard⟩ (fun source seen => (source ++ "+1", source :: seen)) []
          (relink ⟨Limits.standard⟩ (fun source n => (if n = 0 then source else "(", n + 1)) 0
            first).left).left := by
  have hok : (compileContent ⟨Limits.standard⟩ "[?\x7b!x!\x7d:[+b:c+]?]" false).toBool =
      true := by
    decide +kernel
  cases h : compileContent ⟨Limits.standard⟩ "[?\x7b!x!\x7d:[+b:c+]?]" false with
  | error e => simp [h, Except.toBool] at hok
  | ok first =>
    have hleaves : Leaves ⟨Limits.standard⟩ first first := .compiled
    exact ⟨first, rfl,
      upholds_of_compileContent _ _ _ first h _ ((hleaves.relinked _ _).relinked _ _)⟩

end Compiler

end Fabula
