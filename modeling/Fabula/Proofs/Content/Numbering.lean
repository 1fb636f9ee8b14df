import Fabula.Content.Extract
import Fabula.Proofs.Outcome
import Mathlib

namespace Fabula

namespace Node

/-- The nodes directly inside a node. -/
def children : Node → List Node
  | styled _ children => children
  | conditional _ children => children
  | sequence children => children
  | _ => []

/-- A node stands somewhere in another, or is that node. -/
inductive Within (m : Node) : Node → Prop where
  | self : Within m m
  | child {n parent : Node} (mem : n ∈ parent.children) (within : Within m n) : Within m parent

/-- The dependency of a conditional is a predicate that is not formatted, and that of an insert
is an insert. -/
def Refers (dependencies : List Dependency) : Node → Prop
  | conditional i _ => ∃ d, dependencies[i]? = some d ∧ d.kind = .predicate ∧ d.formatter = none
  | insert i => ∃ d, dependencies[i]? = some d ∧ d.kind = .insert
  | _ => True

/-- All nodes inside a node refer to dependencies of the right kind. -/
def Agrees (dependencies : List Dependency) (n : Node) : Prop :=
  ∀ m : Node, m.Within n → m.Refers dependencies

variable {dependencies : List Dependency} {n : Node}

theorem forall_within_iff {P : Node → Prop} :
    (∀ m : Node, m.Within n → P m) ↔ P n ∧ ∀ c ∈ n.children, ∀ m : Node, m.Within c → P m := by
  constructor
  · intro h
    exact ⟨h n .self, fun c hc m hm => h m (.child hc hm)⟩
  · intro ⟨hn, hc⟩ m hm
    cases hm with
    | self => exact hn
    | child mem within => exact hc _ mem m within

theorem agrees_iff :
    n.Agrees dependencies ↔ n.Refers dependencies ∧ ∀ c ∈ n.children, c.Agrees dependencies :=
  forall_within_iff

theorem indicesOf_eq_flatMap (ns : List Node) :
    indicesOf ns = ns.flatMap dependencyIndices := by
  induction ns with
  | nil => rfl
  | cons n ns ih => rw [indicesOf, List.flatMap_cons, ih]

theorem indicesOf_append (ns ms : List Node) :
    indicesOf (ns ++ ms) = indicesOf ns ++ indicesOf ms := by
  simp only [indicesOf_eq_flatMap, List.flatMap_append]

end Node

/-- What the logic of a dependency is compiled as. -/
def DependencyKind.root : DependencyKind → RootKind
  | predicate => .predicate
  | insert => .expression

def FormatterName (name : String) : Prop :=
  ∃ c cs, name.toList = c :: cs ∧ ('A' ≤ c ∧ c ≤ 'Z' ∨ 'a' ≤ c ∧ c ≤ 'z') ∧
    ∀ d ∈ cs, 'A' ≤ d ∧ d ≤ 'Z' ∨ 'a' ≤ d ∧ d ≤ 'z' ∨ '0' ≤ d ∧ d ≤ '9' ∨ d = '_' ∨ d = '-'

structure Dependency.Sound (dialect : Dialect Category) (d : Dependency) : Prop where
  compiled : ∀ snippet, d.logic = .structured snippet →
    dialect.compile snippet.source d.kind.root = .ok snippet
  named : ∀ name, d.formatter = some name → FormatterName name

/-- A snippet keeps its source and its root. -/
theorem Dialect.compile_eq_ok {ν : Type} [DecidableEq ν] {dialect : Dialect ν} {source : String}
    {root : RootKind} {snippet : Snippet} (h : dialect.compile source root = .ok snippet) :
    snippet.source = source ∧ snippet.root = root := by
  unfold compile at h
  split at h
  · cases h
  · split at h
    · cases h
    · split at h
      · cases h
      · split at h
        · cases h
          exact ⟨rfl, rfl⟩
        · cases h

namespace Extract

variable {dialect : Dialect Category}

theorem compileLogic_eq_ok {source : String} {root : RootKind} {logic : DependencyLogic}
    (h : compileLogic dialect source root = .ok logic) {snippet : Snippet}
    (hs : logic = .structured snippet) : dialect.compile snippet.source root = .ok snippet := by
  unfold compileLogic at h
  split at h
  · rename_i compiled hc
    cases h
    cases hs
    rw [(Dialect.compile_eq_ok hc).1]
    exact hc
  · cases h

theorem formatterName_of_displayName {s name : String} (h : displayName s = .ok name) :
    FormatterName name := by
  simp only [displayName] at h
  split at h
  · rename_i hn
    cases h
    unfold isDisplayName at hn
    split at hn
    · cases hn
    · rename_i c cs hcs
      simp only [isLetter, Lexicon.isNameRest, Lexicon.isNameStart, Lexicon.isDigit,
        Bool.and_eq_true, Bool.or_eq_true, List.all_eq_true, decide_eq_true_eq,
        beq_iff_eq] at hn
      refine ⟨c, cs, hcs, hn.1, fun d hd => ?_⟩
      rcases hn.2 d hd with (((h | h) | h) | h) | h
      · exact .inl h
      · exact .inr (.inl h)
      · exact .inr (.inr (.inr (.inl h)))
      · exact .inr (.inr (.inl h))
      · exact .inr (.inr (.inr (.inr h)))
  · cases h

def Silent : Range → Prop
  | .text _ => True
  | .node kind _ => kind = .rawScript

structure Head.Sound (dialect : Dialect Category) (children : List Range)
    (h : Head) : Prop where
  compiled : ∀ snippet, h.logic = .structured snippet →
    dialect.compile snippet.source .predicate = .ok snippet
  silent : ∀ r ∈ children.take h.taken, Silent r

theorem headAt_sound {children : List Range} {h : Head} (hh : headAt dialect children = .ok h) :
    h.Sound dialect children := by
  unfold headAt at hh
  split at hh
  · split at hh
    · cases hh
    · split at hh
      · cases hh
      · obtain ⟨logic, hlogic, rfl⟩ := map_eq_ok_iff.mp hh
        refine ⟨fun snippet hs => compileLogic_eq_ok hlogic hs, ?_⟩
        simp [Silent]
  · split at hh
    · cases hh
    · cases hh
      refine ⟨fun snippet hs => DependencyLogic.noConfusion hs, ?_⟩
      simp [Silent]
  · cases hh

theorem head_sound {children : List Range} {h : Head} (hh : head dialect children = .ok h) :
    h.Sound dialect children := by
  unfold head at hh
  split at hh
  · rename_i first next more
    split at hh
    · rename_i hblank
      obtain ⟨h', hh', rfl⟩ := map_eq_ok_iff.mp hh
      have hs := headAt_sound hh'
      refine ⟨hs.compiled, ?_⟩
      intro r hr
      simp only [List.take_succ_cons, List.mem_cons] at hr
      rcases hr with rfl | hr
      · cases r with
        | text s => trivial
        | node kind children => simp [isBlankRange] at hblank
      · exact hs.silent r hr
    · exact headAt_sound hh
  · exact headAt_sound hh

theorem rawScript_sound {source : String} {formatter : Option String}
    (hf : ∀ name, formatter = some name → FormatterName name) :
    Dependency.Sound dialect ⟨.insert, .rawScript source, formatter⟩ :=
  ⟨fun _ hs => DependencyLogic.noConfusion hs, hf⟩

theorem compiled_sound {source : String} {logic : DependencyLogic} {formatter : Option String}
    (h : compileLogic dialect source .expression = .ok logic)
    (hf : ∀ name, formatter = some name → FormatterName name) :
    Dependency.Sound dialect ⟨.insert, logic, formatter⟩ :=
  ⟨fun _ hs => compileLogic_eq_ok h hs, hf⟩

theorem insertion_sound {children : List Range} {d : Dependency}
    (hd : insertion dialect children = .ok d) : d.kind = .insert ∧ d.Sound dialect := by
  unfold insertion at hd
  split at hd
  · cases hd
    exact ⟨rfl, rawScript_sound (by simp)⟩
  · split at hd
    · cases hd
    · obtain ⟨name, hname, rfl⟩ := map_eq_ok_iff.mp hd
      refine ⟨rfl, rawScript_sound ?_⟩
      rintro _ ⟨⟩
      exact formatterName_of_displayName hname
  · dsimp only at hd
    split at hd
    · obtain ⟨parts, hparts, hd⟩ := bind_eq_ok_iff.mp hd
      cases hparts
      split at hd
      · cases hd
      · obtain ⟨logic, hlogic, rfl⟩ := map_eq_ok_iff.mp hd
        exact ⟨rfl, compiled_sound hlogic (by simp)⟩
    · obtain ⟨parts, hparts, hd⟩ := bind_eq_ok_iff.mp hd
      obtain ⟨name, hname, rfl⟩ := map_eq_ok_iff.mp hparts
      split at hd
      · cases hd
      · obtain ⟨logic, hlogic, rfl⟩ := map_eq_ok_iff.mp hd
        refine ⟨rfl, compiled_sound hlogic ?_⟩
        rintro _ ⟨⟩
        exact formatterName_of_displayName hname
  · cases hd

section Body

variable {h : Head} {n : Node} {ns : List Node}

theorem indicesOf_trimFirst (ns : List Node) :
    Node.indicesOf (trimFirst ns) = Node.indicesOf ns := by
  unfold trimFirst
  split
  · rfl
  · rfl

theorem indicesOf_trimLast (ns : List Node) :
    Node.indicesOf (trimLast ns) = Node.indicesOf ns := by
  fun_induction trimLast ns with
  | case1 => rfl
  | case2 s => rfl
  | case3 n rest hne ih => rw [Node.indicesOf, Node.indicesOf, ih]

theorem indicesOf_filter (ns : List Node) :
    Node.indicesOf (ns.filter (!isEmptyText ·)) = Node.indicesOf ns := by
  induction ns with
  | nil => rfl
  | cons n ns ih =>
    cases n with
    | text s =>
      by_cases hs : s.isEmpty = true
      · rw [List.filter_cons_of_neg (by simpa [isEmptyText] using hs), ih, Node.indicesOf]
        rfl
      · rw [List.filter_cons_of_pos (by simpa [isEmptyText] using hs), Node.indicesOf,
          Node.indicesOf, ih]
    | _ => rw [List.filter_cons_of_pos rfl, Node.indicesOf, Node.indicesOf, ih]

theorem indicesOf_body : Node.indicesOf (body h ns) = Node.indicesOf (ns.drop h.taken) := by
  rw [body, indicesOf_filter, indicesOf_trimLast, indicesOf_trimFirst, Node.indicesOf]
  rfl

theorem mem_trimFirst (hn : n ∈ trimFirst ns) : n ∈ ns ∨ ∃ s, n = .text s := by
  unfold trimFirst at hn
  split at hn
  · rcases List.mem_cons.mp hn with rfl | hn
    · exact .inr ⟨_, rfl⟩
    · exact .inl (List.mem_cons_of_mem _ hn)
  · exact .inl hn

theorem mem_trimLast (hn : n ∈ trimLast ns) : n ∈ ns ∨ ∃ s, n = .text s := by
  fun_induction trimLast ns with
  | case1 => exact .inl hn
  | case2 s => exact .inr ⟨_, List.mem_singleton.mp hn⟩
  | case3 m rest hne ih =>
    rcases List.mem_cons.mp hn with rfl | hn
    · exact .inl List.mem_cons_self
    · exact (ih hn).imp_left (List.mem_cons_of_mem _)

theorem mem_body (hn : n ∈ body h ns) : n ∈ ns ∨ ∃ s, n = .text s := by
  rcases mem_trimLast (List.mem_filter.mp hn).1 with hn | hs
  · rcases mem_trimFirst hn with hn | hs
    · rcases List.mem_cons.mp hn with rfl | hn
      · exact .inr ⟨_, rfl⟩
      · exact .inl (List.mem_of_mem_drop hn)
    · exact .inr hs
  · exact .inr hs

end Body

section Numbered

variable {next k : Nat} {n : Node} {ns : List Node} {first later ds : List Dependency}
  {r : Range}
  {rs : List Range}

structure Numbered (dialect : Dialect Category) (next : Nat) (ns : List Node)
    (ds : List Dependency) : Prop where
  indices : Node.indicesOf ns = List.range' next ds.length
  agrees : ∀ before after, before.length = next → ∀ n ∈ ns, n.Agrees (before ++ ds ++ after)
  sound : ∀ d ∈ ds, d.Sound dialect

namespace Numbered

theorem nil : Numbered dialect next [] [] :=
  ⟨rfl, fun _ _ _ _ hn => absurd hn List.not_mem_nil, fun _ hd => absurd hd List.not_mem_nil⟩

theorem cons (hn : Numbered dialect next [n] first)
    (hns : Numbered dialect (next + first.length) ns later) :
    Numbered dialect next (n :: ns) (first ++ later) := by
  refine ⟨?_, ?_, ?_⟩
  · have hsplit := Node.indicesOf_append [n] ns
    rw [List.singleton_append, hn.indices, hns.indices] at hsplit
    rw [hsplit, List.length_append, List.range'_append_1]
  · intro before after hlen m hm
    rcases List.mem_cons.mp hm with rfl | hm
    · simpa only [List.append_assoc] using hn.agrees before (later ++ after) hlen m (by simp)
    · have hlen' : (before ++ first).length = next + first.length := by
        rw [List.length_append, hlen]
      simpa only [List.append_assoc] using hns.agrees (before ++ first) after hlen' m hm
  · intro d hd
    rcases List.mem_append.mp hd with hd | hd
    · exact hn.sound d hd
    · exact hns.sound d hd

/-- A node without dependencies of its own that holds others is numbered as they are. -/
theorem hold (hns : Numbered dialect next ns ds)
    (hindices : n.dependencyIndices = Node.indicesOf ns) (hrefers : ∀ all, n.Refers all)
    (hchildren : ∀ m ∈ n.children, m ∈ ns) : Numbered dialect next [n] ds := by
  refine ⟨?_, ?_, hns.sound⟩
  · rw [Node.indicesOf, hindices, hns.indices]
    exact List.append_nil _
  · intro before after hlen m hm
    rw [List.mem_singleton.mp hm]
    exact Node.agrees_iff.mpr
      ⟨hrefers _, fun c hc => hns.agrees before after hlen c (hchildren c hc)⟩

theorem leaf (hindices : n.dependencyIndices = []) (hrefers : ∀ all, n.Refers all)
    (hchildren : n.children = []) : Numbered dialect next [n] [] :=
  nil.hold hindices hrefers (by simp [hchildren])

theorem insert {d : Dependency} (hk : d.kind = .insert) (hd : d.Sound dialect) :
    Numbered dialect next [.insert next] [d] := by
  refine ⟨rfl, ?_, by simpa using hd⟩
  intro before after hlen m hm
  rw [List.mem_singleton.mp hm, Node.agrees_iff]
  refine ⟨⟨d, ?_, hk⟩, by simp [Node.children]⟩
  rw [List.append_assoc, List.getElem?_append_right (by omega), hlen]
  simp

/-- A conditional comes before what is inside it; its head holds no dependency. -/
theorem conditional {h : Head} {children : List Range} (hh : h.Sound dialect children)
    (hns : Numbered dialect (next + 1) ns ds)
    (hdrop : Node.indicesOf (ns.drop h.taken) = Node.indicesOf ns) :
    Numbered dialect next [.conditional next (body h ns)]
      (⟨.predicate, h.logic, none⟩ :: ds) := by
  refine ⟨?_, ?_, ?_⟩
  · rw [Node.indicesOf, Node.indicesOf, List.append_nil, Node.dependencyIndices,
      indicesOf_body, hdrop, hns.indices, List.length_cons, List.range'_succ]
  · intro before after hlen m hm
    rw [List.mem_singleton.mp hm, Node.agrees_iff]
    refine ⟨⟨⟨.predicate, h.logic, none⟩, ?_, rfl, rfl⟩, fun c hc => ?_⟩
    · rw [List.append_assoc, List.getElem?_append_right (by omega), hlen]
      simp
    · rcases mem_body hc with hc | ⟨s, rfl⟩
      · have hlen' : (before ++ [Dependency.mk .predicate h.logic none]).length = next + 1 := by
          rw [List.length_append, hlen, List.length_singleton]
        simpa only [List.append_assoc, List.cons_append, List.nil_append] using
          hns.agrees _ after hlen' c hc
      · exact Node.agrees_iff.mpr ⟨trivial, by simp [Node.children]⟩
  · intro d hd
    rcases List.mem_cons.mp hd with rfl | hd
    · exact ⟨hh.compiled, fun name hn => by cases hn⟩
    · exact hns.sound d hd

end Numbered

theorem nodesOf_cons (h : nodesOf dialect next (r :: rs) = .ok (ns, ds)) :
    ∃ n first ms later, node dialect next r = .ok (n, first) ∧
      nodesOf dialect (next + first.length) rs = .ok (ms, later) ∧ ns = n :: ms ∧
        ds = first ++ later := by
  rw [nodesOf] at h
  obtain ⟨⟨n, first⟩, hn, h⟩ := bind_eq_ok_iff.mp h
  obtain ⟨⟨ms, later⟩, hms, h⟩ := bind_eq_ok_iff.mp h
  cases h
  exact ⟨n, first, ms, later, hn, hms, rfl, rfl⟩

theorem indices_of_silent (hr : Silent r) (h : node dialect next r = .ok (n, ds)) :
    n.dependencyIndices = [] := by
  cases r with
  | text s =>
    cases h
    rfl
  | node kind children =>
    cases hr
    cases h
    rfl

theorem indicesOf_drop (h : nodesOf dialect next rs = .ok (ns, ds))
    (hs : ∀ r ∈ rs.take k, Silent r) : Node.indicesOf (ns.drop k) = Node.indicesOf ns := by
  induction rs generalizing next k ns ds with
  | nil =>
    cases h
    simp
  | cons r rs ih =>
    cases k with
    | zero => rfl
    | succ k =>
      obtain ⟨n, first, ms, later, hn, hms, rfl, rfl⟩ := nodesOf_cons h
      rw [List.drop_succ_cons, Node.indicesOf, indices_of_silent (hs r (by simp)) hn,
        List.nil_append]
      exact ih hms fun r' hr' => hs r' (by simp [hr'])

theorem container_holds (kind : SpanKind) (ns : List Node) :
    (container kind ns).dependencyIndices = Node.indicesOf ns ∧
      (container kind ns).children = ns ∧
      ∀ all, (container kind ns).Refers all := by
  unfold container
  split <;> exact ⟨rfl, rfl, fun _ => trivial⟩

mutual

/-- The node of a range is numbered. -/
theorem node_numbered (dialect : Dialect Category) (next : Nat) :
    ∀ (r : Range) (n : Node) (ds : List Dependency),
      node dialect next r = .ok (n, ds) → Numbered dialect next [n] ds
  | .text s, n, ds, h => by
    cases h
    exact .leaf rfl (fun _ => trivial) rfl
  | .node kind children, n, ds, h => by
    have hchildren {next : Nat} {ns : List Node} {ds : List Dependency}
        (hns : nodesOf dialect next children = .ok (ns, ds)) : Numbered dialect next ns ds :=
      nodesOf_numbered dialect next children ns ds hns
    cases kind with
    | conditional =>
      rw [node] at h
      obtain ⟨head, hhead, h⟩ := bind_eq_ok_iff.mp h
      obtain ⟨⟨ns, inner⟩, hns, h⟩ := bind_eq_ok_iff.mp h
      cases h
      have hs := head_sound hhead
      exact (hchildren hns).conditional hs (indicesOf_drop hns hs.silent)
    | insert =>
      rw [node] at h
      obtain ⟨d, hd, h⟩ := bind_eq_ok_iff.mp h
      cases h
      exact .insert (insertion_sound hd).1 (insertion_sound hd).2
    | rawScript =>
      cases h
      exact .leaf rfl (fun _ => trivial) rfl
    | lineBreak =>
      cases h
      exact .leaf rfl (fun _ => trivial) rfl
    | horizontalRule =>
      cases h
      exact .leaf rfl (fun _ => trivial) rfl
    | _ =>
      -- The remaining kinds only hold what is inside them.
      simp only [node] at h
      obtain ⟨⟨ns, ds⟩, hns, h⟩ := bind_eq_ok_iff.mp h
      cases h
      obtain ⟨hindices, hheld, hrefers⟩ := container_holds _ ns
      exact (hchildren hns).hold hindices hrefers fun m hm => hheld ▸ hm

theorem nodesOf_numbered (dialect : Dialect Category) (next : Nat) :
    ∀ (rs : List Range) (ns : List Node) (ds : List Dependency),
      nodesOf dialect next rs = .ok (ns, ds) → Numbered dialect next ns ds
  | [], ns, ds, h => by
    cases h
    exact .nil
  | r :: rs, ns, ds, h => by
    obtain ⟨n, first, ms, later, hn, hms, rfl, rfl⟩ := nodesOf_cons h
    exact (node_numbered dialect next r n first hn).cons
      (nodesOf_numbered dialect (next + first.length) rs ms later hms)

end

end Numbered

end Extract

end Fabula
