import Fabula.Proofs.Grammar.Construction
import Fabula.Proofs.Grammar.Mirroring
import Mathlib

namespace Fabula

open Relation

namespace Branch

def index? : Branch → Option Nat
  | token _ => none
  | node j => some j

def indices (branches : List Branch) : List Nat := branches.filterMap index?

def fill {τ ρ : Type} (tokens : Array (Token τ)) : List Branch → List ρ → List (Child τ ρ)
  | [], _ => []
  | token k :: branches, values => (tokens[k]?.map .token).toList ++ fill tokens branches values
  | node _ :: branches, [] => fill tokens branches []
  | node _ :: branches, value :: values => .value value :: fill tokens branches values

@[simp]
theorem indices_token (k : Nat) (branches : List Branch) :
    indices (token k :: branches) = indices branches :=
  rfl

@[simp]
theorem indices_node (j : Nat) (branches : List Branch) :
    indices (node j :: branches) = j :: indices branches :=
  rfl

theorem mem_indices {j : Nat} {branches : List Branch} :
    j ∈ indices branches ↔ node j ∈ branches := by
  rw [indices, List.mem_filterMap]
  constructor
  · rintro ⟨b, hb, hj⟩
    cases b with
    | token k => cases hj
    | node i =>
      cases hj
      exact hb
  · intro hj
    exact ⟨_, hj, rfl⟩

theorem length_fill {τ ρ : Type} {tokens : Array (Token τ)} {branches : List Branch}
    {values : List ρ} (hv : values.length = (indices branches).length)
    (ht : ∀ k, token k ∈ branches → k < tokens.size) :
    (fill tokens branches values).length = branches.length := by
  induction branches generalizing values with
  | nil => rfl
  | cons b branches ih =>
    have ht' : ∀ k, token k ∈ branches → k < tokens.size :=
      fun k hk => ht k (List.mem_cons_of_mem b hk)
    cases b with
    | token k =>
      rw [indices_token] at hv
      rw [fill, Array.getElem?_eq_getElem (ht k List.mem_cons_self), Option.map_some,
        Option.toList_some, List.length_append, ih hv ht', List.length_singleton,
        List.length_cons, Nat.add_comm]
    | node j =>
      cases values with
      | nil => simp at hv
      | cons value values =>
        rw [fill, List.length_cons, List.length_cons, ih (by simpa using hv) ht']

end Branch

variable {ν τ ρ : Type} [DecidableEq ν]

theorem Derives.leaf_lt {g : Grammar ν τ ρ} {tokens : Array (Token τ)}
    {symbols : List (Symbol ν τ)} {trees : List Derivation} {i k m : Nat}
    (h : Derives g tokens symbols trees i k) (hm : .leaf m ∈ trees) : m < tokens.size := by
  induction h with
  | nil => cases hm
  | token matched rest ih =>
    rcases List.mem_cons.mp hm with he | hm
    · cases he
      obtain ⟨t, ht, -⟩ := exists_token matched
      exact (Array.getElem?_eq_some_iff.mp ht).1
    · exact ih hm
  | rule produced inner rest ihInner ihRest =>
    rcases List.mem_cons.mp hm with he | hm
    · cases he
    · exact ihRest hm

namespace Derivation

variable {g : Grammar ν τ ρ} {tokens : Array (Token τ)}

theorem evaluateAll_leaf {i : Nat} {t : Token τ} (ht : tokens[i]? = some t)
    (trees : List Derivation) :
    evaluateAll g tokens (.leaf i :: trees) =
      (evaluateAll g tokens trees).map (.token t :: ·) := by
  simp only [evaluateAll, evaluate, ht]
  cases evaluateAll g tokens trees with
  | error e => rfl
  | ok later => rfl

/-- The children come before the action, and what comes later is left alone if either fails. -/
theorem evaluateAll_node {p : Nat} {q : Production ν τ ρ} (hq : g.productions[p]? = some q)
    (children trees : List Derivation) :
    evaluateAll g tokens (.node p children :: trees) =
      evaluateAll g tokens children >>= fun given =>
        (q.action given).mapError (.action q.lhs) >>= fun value =>
          (evaluateAll g tokens trees).map (.value value :: ·) := by
  simp only [evaluateAll, evaluate, hq, bind, Except.bind]
  cases evaluateAll g tokens children with
  | error e => rfl
  | ok given =>
    cases ha : q.action given with
    | error message => simp only [ha, Except.mapError]
    | ok value =>
      simp only [ha, Except.mapError]
      cases evaluateAll g tokens trees with
      | error e => rfl
      | ok later => rfl

end Derivation

theorem Derives.evaluateAll_singleton {g : Grammar ν τ ρ} {tokens : Array (Token τ)} {name : ν}
    {d : Derivation} {i k : Nat} (h : Derives g tokens [.nonterminal name] [d] i k) (root : ν) :
    Derivation.evaluateAll g tokens [d] =
      (g.reduce root tokens d).map fun value => [Child.value value] := by
  have hd : (g.reduce root tokens d).map _ = d.evaluate g tokens := h.reduce_eq_evaluate
  rw [Derivation.evaluateAll, ← hd]
  cases g.reduce root tokens d with
  | error e => rfl
  | ok value => rfl

/-- Another grammar has the same rules, and its actions do the same wherever they are given one
child for each symbol. -/
structure Grammar.Agrees (g g' : Grammar ν τ ρ) : Prop where
  lhs : ∀ p, g'.lhs? p = g.lhs? p
  rhs : ∀ p, g'.rhs p = g.rhs p
  action : ∀ (i : Nat) (p p' : Production ν τ ρ), g.productions[i]? = some p →
    g'.productions[i]? = some p' →
    ∀ given, given.length = p.rhs.length → p'.action given = p.action given

namespace Derives

variable {g g' : Grammar ν τ ρ} {tokens : Array (Token τ)} {symbols : List (Symbol ν τ)}
  {trees : List Derivation} {i k : Nat}

theorem of_agrees (h : Derives g tokens symbols trees i k) (ha : g.Agrees g') :
    Derives g' tokens symbols trees i k := by
  induction h with
  | nil => exact .nil
  | token matched rest ih => exact .token matched ih
  | @rule p name symbols children trees i j k produced inner rest ihInner ihRest =>
    rw [← ha.rhs] at ihInner
    exact .rule ((ha.lhs p).trans produced) ihInner ihRest

theorem evaluateAll_of_agrees (h : Derives g tokens symbols trees i k) (ha : g.Agrees g') :
    Derivation.evaluateAll g' tokens trees = Derivation.evaluateAll g tokens trees := by
  induction h with
  | nil => rfl
  | token matched rest ih => simp only [Derivation.evaluateAll, Derivation.evaluate, ih]
  | @rule p name symbols children trees i j k produced inner rest ihInner ihRest =>
    obtain ⟨q, hq, -⟩ := Grammar.lhs?_eq_some_iff.mp produced
    obtain ⟨q', hq', -⟩ := Grammar.lhs?_eq_some_iff.mp ((ha.lhs p).trans produced)
    have hlhs : q'.lhs = q.lhs := by simpa [Grammar.lhs?, hq, hq'] using ha.lhs p
    rw [Derivation.evaluateAll_node hq, Derivation.evaluateAll_node hq', ihInner, ihRest]
    cases hc : Derivation.evaluateAll g tokens children with
    | error e => rfl
    | ok given =>
      have hlength : given.length = q.rhs.length := by
        rw [inner.evaluateAll_length hc, inner.length_eq, Grammar.rhs_eq hq]
      simp only [bind, Except.bind, ha.action p q q' hq hq' given hlength, hlhs]

theorem reduce_of_agrees {name : ν} {d : Derivation}
    (h : Derives g tokens [.nonterminal name] [d] i k) (ha : g.Agrees g') (root : ν) :
    g'.reduce root tokens d = g.reduce root tokens d := by
  have he := h.evaluateAll_of_agrees ha
  rw [h.evaluateAll_singleton root, (h.of_agrees ha).evaluateAll_singleton root] at he
  apply eq_of_map_eq _ he
  intro value value' h
  exact Child.value.inj (List.singleton_inj.mp h)

end Derives

namespace Stem

structure Faithful (g : Grammar ν τ ρ) (tokens : Array (Token τ))
    (nodes : List Stem) : Prop where
  ordered : Ordered nodes
  derives : ∀ n ∈ nodes, ∃ name i k,
    Derives g tokens [.nonterminal name] [n.tree (grow nodes)] i k

namespace Faithful

variable {g : Grammar ν τ ρ} {tokens : Array (Token τ)} {nodes : List Stem} {n : Stem}

theorem exists_production (h : Faithful g tokens nodes) (hn : n ∈ nodes) :
    ∃ p, g.productions[n.production]? = some p ∧ n.branches.length = p.rhs.length := by
  obtain ⟨name, i, k, hd⟩ := h.derives n hn
  obtain ⟨q, children, he, produced, inner⟩ := Derives.rule_iff.mp hd
  obtain ⟨rfl, rfl⟩ := Derivation.node.inj he
  obtain ⟨p, hp, -⟩ := Grammar.lhs?_eq_some_iff.mp produced
  have hlength := inner.length_eq
  rw [List.length_map, Grammar.rhs_eq hp] at hlength
  exact ⟨p, hp, hlength⟩

theorem token_lt (h : Faithful g tokens nodes) (hn : n ∈ nodes) {k : Nat}
    (hk : .token k ∈ n.branches) : k < tokens.size := by
  obtain ⟨name, i, k', hd⟩ := h.derives n hn
  obtain ⟨q, children, he, -, inner⟩ := Derives.rule_iff.mp hd
  obtain ⟨rfl, rfl⟩ := Derivation.node.inj he
  exact inner.leaf_lt (List.mem_map_of_mem hk)

theorem index_lt (h : Faithful g tokens nodes) (hn : n ∈ nodes) {j : Nat}
    (hj : j ∈ Branch.indices n.branches) : j < nodes.length := by
  obtain ⟨i, hi⟩ := List.mem_iff_getElem?.mp hn
  exact h.ordered.below hi _ (Branch.mem_indices.mp hj)

end Faithful

end Stem

/-- The nodes that are still to be reduced, each with whether what stands under it has been, the
next one first; and the values so far, the last one on top. -/
structure Reducer (ρ : Type) where
  pending : List (Nat × Bool)
  values : List ρ

namespace Reducer

def start (j : Nat) : Reducer ρ := ⟨[(j, false)], []⟩

/-- What the action of a node is given: its tokens, and as many of the topmost values as it has
nodes under it. -/
def given (tokens : Array (Token τ)) (s : Reducer ρ) (n : Stem) : List (Child τ ρ) :=
  Branch.fill tokens n.branches
    (s.values.drop (s.values.length - (Branch.indices n.branches).length))

/-- The values under those that a node takes. -/
def kept (s : Reducer ρ) (n : Stem) : List ρ :=
  s.values.take (s.values.length - (Branch.indices n.branches).length)

/-- One step, or the result where there is none. -/
def step (g : Grammar ν τ ρ) (root : ν) (tokens : Array (Token τ)) (nodes : List Stem)
    (s : Reducer ρ) : Reducer ρ ⊕ Except (ParseError ν) ρ :=
  match s.pending with
  | [] =>
    match s.values.getLast? with
    | some value => .inr (.ok value)
    | none => .inr (.error (.action root "reduction produced no value"))
  | (j, done) :: rest =>
    match nodes[j]? with
    | none => .inl ⟨rest, s.values⟩
    | some n =>
      if done then
        match g.productions[n.production]? with
        | none => .inl ⟨rest, s.kept n⟩
        | some p =>
          match p.action (s.given tokens n) with
          | .ok value => .inl ⟨rest, s.kept n ++ [value]⟩
          | .error message => .inr (.error (.action p.lhs message))
      else .inl ⟨(Branch.indices n.branches).map (·, false) ++ (j, true) :: rest, s.values⟩

def Step (g : Grammar ν τ ρ) (root : ν) (tokens : Array (Token τ)) (nodes : List Stem)
    (s s' : Reducer ρ) : Prop :=
  s.step g root tokens nodes = .inl s'

/-- The steps from a state end, with the result. -/
def Ends (g : Grammar ν τ ρ) (root : ν) (tokens : Array (Token τ)) (nodes : List Stem)
    (s : Reducer ρ) (r : Except (ParseError ν) ρ) : Prop :=
  ∃ s', ReflTransGen (Step g root tokens nodes) s s' ∧ s'.step g root tokens nodes = .inr r

variable {g : Grammar ν τ ρ} {root : ν} {tokens : Array (Token τ)} {nodes : List Stem}
  {s s' : Reducer ρ} {r r' : Except (ParseError ν) ρ} {j : Nat} {n : Stem}
  {p : Production ν τ ρ}
  {rest : List (Nat × Bool)} {values vs : List ρ} {value : ρ}

theorem step_enter (hn : nodes[j]? = some n) :
    Step g root tokens nodes ⟨(j, false) :: rest, values⟩
      ⟨(Branch.indices n.branches).map (·, false) ++ (j, true) :: rest, values⟩ := by
  simp only [Step, step, hn, Bool.false_eq_true, if_false]

theorem step_reduce (hn : nodes[j]? = some n) (hp : g.productions[n.production]? = some p)
    (hs : s.pending = (j, true) :: rest) (ha : p.action (s.given tokens n) = .ok value) :
    Step g root tokens nodes s ⟨rest, s.kept n ++ [value]⟩ := by
  simp only [Step, step, hs, hn, hp, ha, if_true]

theorem step_refuse (hn : nodes[j]? = some n) (hp : g.productions[n.production]? = some p)
    (hs : s.pending = (j, true) :: rest) {message : String}
    (ha : p.action (s.given tokens n) = .error message) :
    s.step g root tokens nodes = .inr (.error (.action p.lhs message)) := by
  simp only [step, hs, hn, hp, ha, if_true]

theorem step_last : step g root tokens nodes ⟨[], [value]⟩ = .inr (.ok value) :=
  rfl

theorem given_append (hv : vs.length = (Branch.indices n.branches).length) :
    given tokens ⟨rest, values ++ vs⟩ n = Branch.fill tokens n.branches vs := by
  rw [given, List.length_append, hv, Nat.add_sub_cancel, List.drop_left]

theorem kept_append (hv : vs.length = (Branch.indices n.branches).length) :
    kept ⟨rest, values ++ vs⟩ n = values := by
  rw [kept, List.length_append, hv, Nat.add_sub_cancel, List.take_left]

theorem length_kept :
    (s.kept n).length = s.values.length - (Branch.indices n.branches).length := by
  rw [kept, List.length_take, Nat.min_eq_left (Nat.sub_le _ _)]

namespace Ends

theorem head (h : Ends g root tokens nodes s' r) (hs : Step g root tokens nodes s s') :
    Ends g root tokens nodes s r := by
  obtain ⟨last, hr, he⟩ := h
  exact ⟨last, .head hs hr, he⟩

theorem of_reaches (h : Ends g root tokens nodes s' r)
    (hs : ReflTransGen (Step g root tokens nodes) s s') : Ends g root tokens nodes s r := by
  obtain ⟨last, hr, he⟩ := h
  exact ⟨last, hs.trans hr, he⟩

theorem unique (h : Ends g root tokens nodes s r) (h' : Ends g root tokens nodes s r') :
    r = r' := by
  obtain ⟨last, hr, he⟩ := h
  obtain ⟨last', hr', he'⟩ := h'
  have hunique : Relator.RightUnique (Step g root tokens nodes) := by
    intro s₀ s₁ s₂ h₁ h₂
    exact Sum.inl.inj (h₁.symm.trans h₂)
  have hstuck (s₀ : Reducer ρ) : ¬Step g root tokens nodes last s₀ := by
    intro hs
    rw [Step, he] at hs
    cases hs
  have hback := reaches_of_stuck hunique hr' hr hstuck
  rcases ReflTransGen.cases_head hback with rfl | ⟨s₀, hs, -⟩
  · exact Sum.inr.inj (he.symm.trans he')
  · rw [Step, he'] at hs
    cases hs

end Ends

/-- The nodes of branches are reduced as evaluation says: there is a value for each, on top of
those before, or the reduction ends with the error. -/
inductive Follows (g : Grammar ν τ ρ) (root : ν) (tokens : Array (Token τ)) (nodes : List Stem)
    (branches : List Branch) (rest : List (Nat × Bool)) (values : List ρ) :
    Except (ParseError ν) (List (Child τ ρ)) → Prop where
  | ok {vs : List ρ} (count : vs.length = (Branch.indices branches).length)
      (reaches : ReflTransGen (Step g root tokens nodes)
        ⟨(Branch.indices branches).map (·, false) ++ rest, values⟩ ⟨rest, values ++ vs⟩) :
      Follows g root tokens nodes branches rest values (.ok (Branch.fill tokens branches vs))
  | error {e : ParseError ν}
      (ends : Ends g root tokens nodes
        ⟨(Branch.indices branches).map (·, false) ++ rest, values⟩ (.error e)) :
      Follows g root tokens nodes branches rest values (.error e)

namespace Follows

variable {branches : List Branch} {x y : Except (ParseError ν) (List (Child τ ρ))}

theorem nil : Follows g root tokens nodes [] rest values (.ok []) := by
  have h : ReflTransGen (Step g root tokens nodes) ⟨rest, values⟩ ⟨rest, values ++ []⟩ := by
    rw [List.append_nil]
  exact ok rfl h

theorem token {i : Nat} {t : Token τ} (ht : tokens[i]? = some t)
    (h : Follows g root tokens nodes branches rest values x) :
    Follows g root tokens nodes (.token i :: branches) rest values (x.map (.token t :: ·)) := by
  cases h with
  | error ends => exact error ends
  | @ok vs count reaches =>
    have hfill :
        Branch.fill tokens (.token i :: branches) vs =
          .token t :: Branch.fill tokens branches vs := by
      rw [Branch.fill, ht, Option.map_some, Option.toList_some, List.singleton_append]
    have hok : Follows g root tokens nodes (.token i :: branches) rest values _ :=
      ok count reaches
    rwa [hfill] at hok

theorem node {m : Nat} (hn : nodes[m]? = some n) (hp : g.productions[n.production]? = some p)
    (hinner : Follows g root tokens nodes n.branches
      ((m, true) :: ((Branch.indices branches).map (·, false) ++ rest)) values x)
    (hlater : ∀ value, Follows g root tokens nodes branches rest (values ++ [value]) y) :
    Follows g root tokens nodes (.node m :: branches) rest values
      (x >>= fun given => (p.action given).mapError (.action p.lhs) >>= fun value =>
        y.map (.value value :: ·)) := by
  have henter : Step g root tokens nodes
      ⟨(Branch.indices (.node m :: branches)).map (·, false) ++ rest, values⟩ _ := step_enter hn
  cases hinner with
  | error ends => exact error (ends.head henter)
  | @ok vs count reaches =>
    have hreach := ReflTransGen.head henter reaches
    simp only [bind, Except.bind]
    cases ha : p.action (Branch.fill tokens n.branches vs) with
    | error message =>
      rw [← given_append count] at ha
      exact error ⟨_, hreach, step_refuse hn hp rfl ha⟩
    | ok value =>
      rw [← given_append count] at ha
      have hreach := hreach.tail (step_reduce hn hp rfl ha)
      rw [kept_append count] at hreach
      cases hlater value with
      | error ends => exact error (ends.of_reaches hreach)
      | @ok ws count reaches =>
        rw [← List.append_cons] at reaches
        have hcount : (value :: ws).length = (Branch.indices (.node m :: branches)).length := by
          rw [Branch.indices_node, List.length_cons, List.length_cons, count]
        exact ok hcount (hreach.trans reaches)

end Follows

theorem follows (hf : Stem.Faithful g tokens nodes) {symbols : List (Symbol ν τ)}
    {trees : List Derivation} {i k : Nat} (h : Derives g tokens symbols trees i k)
    {branches : List Branch} (hb : branches.map (Branch.tree (Stem.grow nodes)) = trees)
    (hbelow : ∀ b ∈ branches, b.Below nodes.length) (rest : List (Nat × Bool))
    (values : List ρ) :
    Follows g root tokens nodes branches rest values
      (Derivation.evaluateAll g tokens trees) := by
  -- What is pending below and the values so far stay open, since each node changes both.
  induction h generalizing branches rest values with
  | nil =>
    obtain rfl := List.map_eq_nil_iff.mp hb
    exact .nil
  | @token tag symbols trees i k matched later ih =>
    obtain ⟨b, branches, rfl, hhead, htail⟩ := List.map_eq_cons_iff.mp hb
    obtain ⟨hfirst, hothers⟩ := List.forall_mem_cons.mp hbelow
    obtain rfl := hf.ordered.eq_token hfirst hhead
    obtain ⟨t, ht, -⟩ := Derives.exists_token matched
    rw [Derivation.evaluateAll_leaf ht]
    exact .token ht (ih htail hothers rest values)
  | @rule p name symbols children trees i j k produced inner later ihInner ihRest =>
    obtain ⟨b, branches, rfl, hhead, htail⟩ := List.map_eq_cons_iff.mp hb
    obtain ⟨hfirst, hothers⟩ := List.forall_mem_cons.mp hbelow
    obtain ⟨m, n, rfl, hn, rfl, hchildren⟩ := hf.ordered.eq_node hfirst hhead
    obtain ⟨q, hq, -⟩ := Grammar.lhs?_eq_some_iff.mp produced
    rw [Derivation.evaluateAll_node hq]
    apply Follows.node hn hq
    · exact ihInner hchildren (hf.ordered.below hn) _ values
    · intro value
      exact ihRest htail hothers rest (values ++ [value])

theorem ends_reduce (hf : Stem.Faithful g tokens nodes) (hn : nodes[j]? = some n) :
    Ends g root tokens nodes (start j) (g.reduce root tokens (n.tree (Stem.grow nodes))) := by
  obtain ⟨name, i, k, hd⟩ := hf.derives n (List.mem_of_getElem? hn)
  have hbelow : ∀ b ∈ [Branch.node j], b.Below nodes.length :=
    List.forall_mem_singleton.mpr (List.getElem?_eq_some_iff.mp hn).1
  have htree :
      [Branch.node j].map (Branch.tree (Stem.grow nodes)) = [n.tree (Stem.grow nodes)] := by
    rw [List.map_singleton, hf.ordered.tree_node hn]
  have hfollows : Follows g root tokens nodes [.node j] [] [] _ :=
    follows hf hd htree hbelow [] []
  rw [hd.evaluateAll_singleton root] at hfollows
  revert hfollows
  generalize g.reduce root tokens (n.tree (Stem.grow nodes)) = r
  intro hfollows
  cases r with
  | error e =>
    cases hfollows with
    | error ends => exact ends
  | ok value =>
    generalize hx :
      Except.map (fun value => [Child.value value]) (Except.ok value) = x at hfollows
    cases hfollows with
    | error ends => cases hx
    | @ok vs count reaches =>
      obtain ⟨v, rfl⟩ := List.length_eq_one_iff.mp count
      cases hx
      exact ⟨_, reaches, step_last⟩

/-- What is pending fits the number of values: each node is there and will find as many values
as it takes, and one value is left at the end. -/
def Supplied (nodes : List Stem) : List (Nat × Bool) → Nat → Prop
  | [], count => count = 1
  | (j, false) :: rest, count => j < nodes.length ∧ Supplied nodes rest (count + 1)
  | (j, true) :: rest, count =>
    ∃ n, nodes[j]? = some n ∧ (Branch.indices n.branches).length ≤ count ∧
        Supplied nodes rest (count - (Branch.indices n.branches).length + 1)

namespace Supplied

variable {pending : List (Nat × Bool)} {count : Nat}

theorem map_false {indices : List Nat} (hi : ∀ j ∈ indices, j < nodes.length)
    (h : Supplied nodes rest (count + indices.length)) :
    Supplied nodes (indices.map (·, false) ++ rest) count := by
  induction indices generalizing count with
  | nil => exact h
  | cons j indices ih =>
    obtain ⟨hj, hi⟩ := List.forall_mem_cons.mp hi
    rw [List.length_cons, Nat.add_comm indices.length, ← Nat.add_assoc] at h
    exact ⟨hj, ih hi h⟩

theorem lt (h : Supplied nodes pending count) : ∀ x ∈ pending, x.1 < nodes.length := by
  induction pending generalizing count with
  | nil => exact List.forall_mem_nil _
  | cons x pending ih =>
    obtain ⟨j, done⟩ := x
    cases done with
    | false => exact List.forall_mem_cons.mpr ⟨h.1, ih h.2⟩
    | true =>
      obtain ⟨n, hn, -, hrest⟩ := h
      exact List.forall_mem_cons.mpr ⟨(List.getElem?_eq_some_iff.mp hn).1, ih hrest⟩

/-- A step keeps it: what a node puts on the stack gives just the values that the node takes
later. -/
theorem step (hf : Stem.Faithful g tokens nodes) (h : Supplied nodes s.pending s.values.length)
    (hs : Step g root tokens nodes s s') : Supplied nodes s'.pending s'.values.length := by
  obtain ⟨pending, values⟩ := s
  cases pending with
  | nil =>
    obtain ⟨value, rfl⟩ := List.length_eq_one_iff.mp h
    rw [Step, step_last] at hs
    cases hs
  | cons x rest =>
    obtain ⟨j, done⟩ := x
    cases done with
    | false =>
      obtain ⟨hj, hrest⟩ := h
      have hn : nodes[j]? = some nodes[j] := List.getElem?_eq_getElem hj
      cases (step_enter hn).symm.trans hs
      apply map_false
      · intro i hi
        exact hf.index_lt (List.mem_of_getElem? hn) hi
      · refine ⟨_, hn, Nat.le_add_left _ _, ?_⟩
        rwa [Nat.add_sub_cancel]
    | true =>
      obtain ⟨n, hn, hle, hrest⟩ := h
      obtain ⟨p, hp, -⟩ := hf.exists_production (List.mem_of_getElem? hn)
      cases ha : p.action (given tokens ⟨(j, true) :: rest, values⟩ n) with
      | error message =>
        rw [Step, step_refuse hn hp rfl ha] at hs
        cases hs
      | ok value =>
        cases (step_reduce hn hp rfl ha).symm.trans hs
        rwa [List.length_append, length_kept, List.length_singleton]

theorem of_reaches (hf : Stem.Faithful g tokens nodes)
    (h : Supplied nodes s.pending s.values.length)
    (hs : ReflTransGen (Step g root tokens nodes) s s') :
    Supplied nodes s'.pending s'.values.length := by
  induction hs with
  | refl => exact h
  | tail _ hs ih => exact ih.step hf hs

end Supplied

/-- No lookup fails: each pending node is in the arena; a node that is reduced has its
production, finds as many values as it takes, and gives its action one child for each symbol;
and at the end there is a single value. -/
structure Safe (g : Grammar ν τ ρ) (tokens : Array (Token τ)) (nodes : List Stem)
    (s : Reducer ρ) : Prop where
  node : ∀ x ∈ s.pending, x.1 < nodes.length
  action : ∀ j rest, s.pending = (j, true) :: rest → ∃ n p, nodes[j]? = some n ∧
    g.productions[n.production]? = some p ∧
      (Branch.indices n.branches).length ≤ s.values.length ∧
    (s.given tokens n).length = p.rhs.length
  value : s.pending = [] → ∃ value, s.values = [value]

theorem safe_of_reaches (hf : Stem.Faithful g tokens nodes) (hj : j < nodes.length)
    (hs : ReflTransGen (Step g root tokens nodes) (start j) s) : s.Safe g tokens nodes := by
  have hstart : Supplied nodes [(j, false)] 0 := ⟨hj, rfl⟩
  have h := Supplied.of_reaches hf hstart hs
  refine ⟨h.lt, ?_, ?_⟩
  · intro i rest hpending
    rw [hpending] at h
    obtain ⟨n, hn, hle, -⟩ := h
    have hmem := List.mem_of_getElem? hn
    obtain ⟨p, hp, hlength⟩ := hf.exists_production hmem
    refine ⟨n, p, hn, hp, hle, ?_⟩
    rw [given, Branch.length_fill _ fun k => hf.token_lt hmem, hlength]
    rw [List.length_drop, Nat.sub_sub_self hle]
  · intro hpending
    rw [hpending] at h
    exact List.length_eq_one_iff.mp h

end Reducer

namespace Arena

open Reducer

variable [DecidableEq τ]

/-- The arena of a token list holds the derivations of parsing, and any node of it is reduced
with a stack to the result of its tree, which is that of evaluation by recursion. Nodes refer to
nodes before them only, each action is given one child for each symbol, and reduction never ends
without a value. -/
theorem reduction_is_evaluation (g : Grammar ν τ ρ) (root : ν) (tokens : List (Token τ))
    {found : List Nat} {A : Arena} (h : ofTokens g root tokens = (found, A)) :
    (∀ j ∈ found, j < A.nodes.length) ∧ found.map A.tree = g.sampled root tokens ∧
      ∀ j n, A.nodes[j]? = some n →
        (∀ i, .node i ∈ n.branches → i < j) ∧
        (∀ r, Ends g root tokens.toArray A.nodes (start j) r ↔
          r = g.reduce root tokens.toArray (A.tree j)) ∧
        (g.reduce root tokens.toArray (A.tree j)).map (fun value => some (Child.value value)) =
          (A.tree j).evaluate g tokens.toArray ∧
        (∀ g', g.Agrees g' →
          g'.reduce root tokens.toArray (A.tree j) = g.reduce root tokens.toArray (A.tree j)) ∧
        ∀ s : Reducer ρ, ReflTransGen (Step g root tokens.toArray A.nodes) (start j) s →
          s.Safe g tokens.toArray A.nodes := by
  obtain ⟨hbelow, htrees, f, hm⟩ := ofTokens_mirrors g root tokens
  rw [h] at hbelow htrees hm
  refine ⟨hbelow, htrees, fun j n hn => ?_⟩
  have hf : Stem.Faithful g tokens.toArray A.nodes := ⟨hm.ordered, hm.derives⟩
  have htree : A.tree j = n.tree (Stem.grow A.nodes) := hm.ordered.tree_node hn
  obtain ⟨name, i, k, hd⟩ := hm.derives n (List.mem_of_getElem? hn)
  rw [htree]
  have hends : Ends g root tokens.toArray A.nodes (start j) _ := ends_reduce hf hn
  refine ⟨fun i hi => hm.ordered j n hn _ hi, fun r => ⟨fun hr => hr.unique hends, ?_⟩,
    hd.reduce_eq_evaluate, fun g' hg' => hd.reduce_of_agrees hg' root, ?_⟩
  · rintro rfl
    exact hends
  · intro s hs
    exact safe_of_reaches hf (List.getElem?_eq_some_iff.mp hn).1 hs

def starts : Child Unit (List Nat) → List Nat
  | .token t => [t.start]
  | .value found => found

def grouping : Grammar Unit Unit (List Nat) where
  roots := [()]
  productions :=
    #[⟨(), [.nonterminal (), .nonterminal ()], fun given => .ok (given.flatMap starts)⟩,
      ⟨(), [.nonterminal ()], fun given => .ok (given.flatMap starts)⟩,
      ⟨(), [.terminal ()], fun given => .ok (given.flatMap starts)⟩]
  faultless := by decide

def twoTokens : List (Token Unit) := [⟨some (), 3, "a"⟩, ⟨some (), 5, "b"⟩]

/-- Of two tokens the first can be taken once more before they are paired. The pair is the last
node, and it is reduced to the starts in order. -/
theorem grouping_reduction :
    (ofTokens grouping () twoTokens).2.nodes[4]? = some ⟨0, [.node 1, .node 2]⟩ ∧
      Ends grouping () twoTokens.toArray (ofTokens grouping () twoTokens).2.nodes (start 4)
        (.ok [3, 5]) := by
  have hn : (ofTokens grouping () twoTokens).2.nodes[4]? = some ⟨0, [.node 1, .node 2]⟩ := by
    decide +kernel
  have h := (reduction_is_evaluation grouping () twoTokens Prod.mk.eta.symm).2.2 4 _ hn
  have hreduce : .ok [3, 5] =
      grouping.reduce () twoTokens.toArray ((ofTokens grouping () twoTokens).2.tree 4) := by
    decide +kernel
  exact ⟨hn, (h.2.1 _).mpr hreduce⟩

end Arena

end Fabula
