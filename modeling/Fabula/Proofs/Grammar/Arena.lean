import Fabula.Grammar.Parse
import Mathlib

namespace Fabula

/-- What stands under a node for one symbol: a token by its position, or a node by its index. -/
inductive Branch where
  | token (position : Nat)
  | node (index : Nat)
  deriving DecidableEq, Repr

structure Stem where
  production : Nat
  branches : List Branch
  deriving DecidableEq, Repr

namespace Branch

def Below (m : Nat) : Branch → Prop
  | token _ => True
  | node j => j < m

/-- The tree of a branch, among trees in order of their indices. -/
def tree (grown : List Derivation) : Branch → Derivation
  | token k => .leaf k
  | node j => grown.getD j (.leaf 0)

variable {b : Branch} {m k : Nat} {grown more : List Derivation} {branches : List Branch}

theorem Below.mono (h : b.Below m) (hm : m ≤ k) : b.Below k := by
  cases b with
  | token position => trivial
  | node j => exact Nat.lt_of_lt_of_le h hm

theorem tree_append (h : b.Below grown.length) : b.tree (grown ++ more) = b.tree grown := by
  cases b with
  | token position => rfl
  | node j => simp only [tree, List.getD_eq_getElem?_getD, List.getElem?_append_left h]

theorem map_tree_append (h : ∀ b ∈ branches, b.Below grown.length) :
    branches.map (tree (grown ++ more)) = branches.map (tree grown) :=
  List.map_congr_left fun b hb => tree_append (h b hb)

end Branch

namespace Stem

/-- The tree of a node, among trees in order of their indices. -/
def tree (grown : List Derivation) (n : Stem) : Derivation :=
  .node n.production (n.branches.map (Branch.tree grown))

/-- The trees of nodes in order of their indices, each put together from those before it. -/
def grow (nodes : List Stem) : List Derivation :=
  nodes.foldl (fun grown n => grown ++ [n.tree grown]) []

def Ordered (nodes : List Stem) : Prop :=
  ∀ (j : Nat) (n : Stem), nodes[j]? = some n → ∀ b ∈ n.branches, b.Below j

variable {nodes more : List Stem} {n : Stem} {j : Nat}

theorem tree_append {grown more : List Derivation}
    (h : ∀ b ∈ n.branches, b.Below grown.length) : n.tree (grown ++ more) = n.tree grown := by
  rw [tree, tree, Branch.map_tree_append h]

theorem grow_snoc (nodes : List Stem) (n : Stem) :
    grow (nodes ++ [n]) = grow nodes ++ [n.tree (grow nodes)] := by
  simp only [grow, List.foldl_append, List.foldl_cons, List.foldl_nil]

theorem length_grow (nodes : List Stem) : (grow nodes).length = nodes.length := by
  induction nodes using List.reverseRecOn with
  | nil => rfl
  | append_singleton nodes n ih =>
    simp only [grow_snoc, List.length_append, List.length_singleton, ih]

/-- Further nodes leave the trees of the nodes before them as they are. -/
theorem exists_grow_append (nodes more : List Stem) :
    ∃ later, grow (nodes ++ more) = grow nodes ++ later := by
  induction more using List.reverseRecOn with
  | nil => exact ⟨[], by simp⟩
  | append_singleton more n ih =>
    obtain ⟨later, he⟩ := ih
    rw [← List.append_assoc, grow_snoc, he]
    exact ⟨later ++ [_], List.append_assoc _ _ _⟩

theorem map_tree_extend {nodes' : List Stem} (h : nodes <+: nodes') {s : List Branch}
    (hs : ∀ b ∈ s, b.Below nodes.length) :
    s.map (Branch.tree (grow nodes')) = s.map (Branch.tree (grow nodes)) := by
  obtain ⟨more, rfl⟩ := h
  obtain ⟨later, hlater⟩ := exists_grow_append nodes more
  rw [hlater]
  apply Branch.map_tree_append
  rwa [length_grow]

theorem map_trees_extend {nodes' : List Stem} (h : nodes <+: nodes')
    {found : List (List Branch)} (hs : ∀ s ∈ found, ∀ b ∈ s, b.Below nodes.length) :
    found.map (·.map (Branch.tree (grow nodes'))) =
      found.map (·.map (Branch.tree (grow nodes))) :=
  List.map_congr_left fun s hmem => map_tree_extend h (hs s hmem)

theorem lookup_extend {nodes' stems : List Stem} (h : nodes <+: nodes') {indices : List Nat}
    (hi : indices.map (nodes[·]?) = stems.map some) :
    indices.map (nodes'[·]?) = stems.map some := by
  obtain ⟨more, rfl⟩ := h
  rw [← hi]
  apply List.map_congr_left
  intro j hj
  have hmem : nodes[j]? ∈ stems.map some := hi ▸ List.mem_map_of_mem hj
  obtain ⟨n, -, hn⟩ := List.mem_map.mp hmem
  exact List.getElem?_append_left (List.getElem?_eq_some_iff.mp hn.symm).1

theorem lookup_range' (nodes more : List Stem) :
    (List.range' nodes.length more.length).map ((nodes ++ more)[·]?) = more.map some := by
  apply List.ext_getElem
  · simp
  · intro i h₁ h₂
    simp at h₂
    simp [h₂]

namespace Ordered

theorem left (h : Ordered (nodes ++ more)) : Ordered nodes := by
  intro j n hn
  have hj := (List.getElem?_eq_some_iff.mp hn).1
  exact h j n (by rw [List.getElem?_append_left hj, hn])

theorem append (h : Ordered nodes)
    (hmore : ∀ n ∈ more, ∀ b ∈ n.branches, b.Below nodes.length) : Ordered (nodes ++ more) := by
  intro j n hn b hb
  rcases Nat.lt_or_ge j nodes.length with hj | hj
  · rw [List.getElem?_append_left hj] at hn
    exact h j n hn b hb
  · rw [List.getElem?_append_right hj] at hn
    exact (hmore n (List.mem_of_getElem? hn) b hb).mono hj

theorem below (h : Ordered nodes) (hn : nodes[j]? = some n) :
    ∀ b ∈ n.branches, b.Below nodes.length :=
  fun b hb => (h j n hn b hb).mono (Nat.le_of_lt (List.getElem?_eq_some_iff.mp hn).1)

theorem getElem?_grow (h : Ordered nodes) (hn : nodes[j]? = some n) :
    (grow nodes)[j]? = some (n.tree (grow nodes)) := by
  induction nodes using List.reverseRecOn with
  | nil => simp at hn
  | append_singleton nodes m ih =>
    have hbelow : ∀ b ∈ n.branches, b.Below (grow nodes).length := by
      intro b hb
      have hj := (List.getElem?_eq_some_iff.mp hn).1
      rw [length_grow]
      rw [List.length_append, List.length_singleton] at hj
      exact (h j n hn b hb).mono (Nat.le_of_lt_succ hj)
    rw [grow_snoc, tree_append hbelow]
    rcases Nat.lt_or_ge j nodes.length with hj | hj
    · rw [List.getElem?_append_left hj] at hn
      rw [List.getElem?_append_left (by rwa [length_grow])]
      exact ih h.left hn
    · rw [List.getElem?_append_right hj] at hn
      obtain ⟨hj', rfl⟩ := List.getElem?_eq_some_iff.mp hn
      rw [List.getElem?_append_right (by rwa [length_grow]), length_grow]
      simp only [List.length_singleton] at hj'
      simp [Nat.lt_one_iff.mp hj']

theorem tree_node (h : Ordered nodes) (hn : nodes[j]? = some n) :
    (Branch.node j).tree (grow nodes) = n.tree (grow nodes) := by
  rw [Branch.tree, List.getD_eq_getElem?_getD, h.getElem?_grow hn, Option.getD_some]

theorem eq_token (h : Ordered nodes) {b : Branch} (hb : b.Below nodes.length) {k : Nat}
    (ht : b.tree (grow nodes) = .leaf k) : b = .token k := by
  cases b with
  | token m =>
    cases ht
    rfl
  | node i =>
    rw [h.tree_node (List.getElem?_eq_getElem hb)] at ht
    cases ht

/-- Only a node has a production for its tree, over the trees of its branches. -/
theorem eq_node (h : Ordered nodes) {b : Branch} (hb : b.Below nodes.length) {p : Nat}
    {children : List Derivation} (ht : b.tree (grow nodes) = .node p children) :
    ∃ i m, b = .node i ∧ nodes[i]? = some m ∧ m.production = p ∧
      m.branches.map (Branch.tree (grow nodes)) = children := by
  cases b with
  | token m => cases ht
  | node i =>
    have hm : nodes[i]? = some nodes[i] := List.getElem?_eq_getElem hb
    rw [h.tree_node hm] at ht
    obtain ⟨hp, hc⟩ := Derivation.node.inj ht
    exact ⟨i, _, rfl, hm, hp, hc⟩

theorem map_tree_lookup (h : Ordered nodes) {indices : List Nat} {stems : List Stem}
    (hi : indices.map (nodes[·]?) = stems.map some) :
    (∀ j ∈ indices, j < nodes.length) ∧
      indices.map (fun j => (Branch.node j).tree (grow nodes)) =
        stems.map (·.tree (grow nodes)) := by
  induction indices generalizing stems with
  | nil =>
    obtain rfl : stems = [] := by simpa using hi.symm
    simp
  | cons j indices ih =>
    cases stems with
    | nil => simp at hi
    | cons n stems =>
      simp only [List.map_cons, List.cons.injEq] at hi ⊢
      obtain ⟨hbelow, htrees⟩ := ih hi.2
      refine ⟨List.forall_mem_cons.mpr ⟨(List.getElem?_eq_some_iff.mp hi.1).1, hbelow⟩,
        ?_, htrees⟩
      exact h.tree_node hi.1

end Ordered

end Stem

inductive Phase where
  | fresh
  | active
  | resolved (sequences : List (List Branch))

def Phase.sequences : Phase → List (List Branch)
  | resolved found => found
  | _ => []

def Phase.status (grown : List Derivation) : Phase → Status
  | fresh => .fresh
  | active => .active
  | resolved found => .resolved (found.map (·.map (Branch.tree grown)))

theorem Phase.status_extend {p : Phase} {nodes nodes' : List Stem} (h : nodes <+: nodes')
    (hp : ∀ s ∈ p.sequences, ∀ b ∈ s, b.Below nodes.length) :
    p.status (Stem.grow nodes') = p.status (Stem.grow nodes) := by
  cases p with
  | fresh => rfl
  | active => rfl
  | resolved found =>
    have hp : ∀ s ∈ found, ∀ b ∈ s, b.Below nodes.length := hp
    rw [status, status, Stem.map_trees_extend h hp]

/-- The nodes made so far, the phases of all entries, and for each entry that has been asked for
its derivations their indices. -/
structure Arena where
  nodes : List Stem
  phase : Address → Phase
  known : Address → Option (List Nat)

namespace Arena

def empty : Arena := ⟨[], fun _ => .fresh, fun _ => none⟩

/-- The tree of the node at an index. -/
def tree (A : Arena) (j : Nat) : Derivation := (Branch.node j).tree (Stem.grow A.nodes)

def setPhase (A : Arena) (a : Address) (p : Phase) : Arena :=
  { A with phase := Function.update A.phase a p }

def sequences (A : Arena) (a : Address) : List (List Branch) := (A.phase a).sequences

def record (A : Arena) (a : Address) (production : Nat) (found : List (List Branch)) : Arena :=
  { A with
    nodes := A.nodes ++ found.map (Stem.mk production)
    known := Function.update A.known a (some (List.range' A.nodes.length found.length)) }

/-- The indices of the derivations of a completed entry. When they are asked for the first time,
the nodes are made. -/
def trees (A : Arena) (chart : Chart) (a : Address) : List Nat × Arena :=
  match A.known a with
  | some indices => (indices, A)
  | none =>
    match A.phase a, chart.entryAt? a with
    | .resolved found, some e =>
      (List.range' A.nodes.length found.length, A.record a e.item.production found)
    | _, _ => ([], A)

/-- The branches to what a link moves the dot over. -/
def pieces (A : Arena) (chart : Chart) : Piece → List Branch × Arena
  | .token column => ([.token column], A)
  | .item a => ((A.trees chart a).1.map .node, (A.trees chart a).2)

def combine (chart : Chart) :
    List Link → List (List Branch) → Arena → List (List Branch) × Arena
  | [], found, A => (found, A)
  | l :: ls, found, A =>
    if found.length ≥ derivationLimit then (found, A)
    else
      let more := (A.sequences l.previous).flatMap fun front =>
        (A.pieces chart l.piece).1.map fun last => front ++ [last]
      combine chart ls ((found ++ more).take derivationLimit) (A.pieces chart l.piece).2

/-- What one task does: the tasks that come before all others now, and the arena after it. -/
def step (chart : Chart) (A : Arena) : Task → List Task × Arena
  | .visit a =>
    match A.phase a, chart.entryAt? a with
    | .fresh, some e =>
      if e.item.dot = 0 then ([], A.setPhase a (.resolved [[]]))
      else (e.links.flatMap Link.visits ++ [.finish a], A.setPhase a .active)
    | _, _ => ([], A)
  | .finish a =>
    match chart.entryAt? a with
    | none => ([], A)
    | some e =>
      ([], (combine chart e.links [] A).2.setPhase a (.resolved (combine chart e.links [] A).1))

/-- Carry out tasks in order, at most the given number of them. -/
def run (chart : Chart) : Nat → List Task → Arena → Arena
  | 0, _, A => A
  | _, [], A => A
  | n + 1, t :: tasks, A => run chart n ((A.step chart t).1 ++ tasks) (A.step chart t).2

def resolve (A : Arena) (chart : Chart) (a : Address) : Arena :=
  run chart (chart.extent + 1) [.visit a] A

/-- The derivations of completed entries in order, until there are enough. -/
def derivations (chart : Chart) : List Address → List Nat → Arena → List Nat × Arena
  | [], found, A => (found, A)
  | a :: rest, found, A =>
    let (indices, A) := (A.resolve chart a).trees chart a
    let found := found ++ indices
    if found.length ≥ derivationLimit then (found, A) else derivations chart rest found A

/-- The arena of a token list for a root, with the derivations of the root that are found. -/
def ofTokens {ν τ ρ : Type} [DecidableEq ν] [DecidableEq τ] (g : Grammar ν τ ρ) (root : ν)
    (tokens : List (Token τ)) : List Nat × Arena :=
  let chart := Chart.ofTokens g root tokens.toArray
  derivations chart (chart.finals g root tokens.toArray.size) [] empty

end Arena

end Fabula
