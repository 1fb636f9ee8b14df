import Mathlib
import Fabula.Logic.Evaluation
import Fabula.Proofs.Outcome

namespace Fabula

/-- A call in an expression: the function and the expressions of its arguments. -/
structure CallNode where
  name : String
  args : List Expr

/-- The left operand settles a connective: `and` when it is false, `or` when it is true. -/
def BinaryOp.settledBy (op : BinaryOp) (left : Value) : Bool :=
  op == .and && !left.isTruthy || op == .or && left.isTruthy

theorem BinaryOp.isSome_decided? (op : BinaryOp) (left : Value) :
    (op.decided? left).isSome = op.settledBy left := by
  cases op <;> cases h : left.isTruthy <;> simp [decided?, settledBy, h]

namespace CallNode

variable (engine : Engine) (visits : Visits) (q : Qualities)

/-- Evaluation of the call fails, in an argument or by the engine. -/
def fails (node : CallNode) : Bool :=
  !((Expr.call node.name node.args).evaluate engine visits q).isOk

def Refused (node : CallNode) (e : EvalError) : Prop :=
  ∃ values, Expr.evaluateAll engine visits q node.args = .ok values ∧
    engine.call node.name values = .error e

end CallNode

namespace Expr

mutual

/-- All calls in an expression: those in operands and arguments from left to right, and then the
call itself. -/
def calls : Expr → List CallNode
  | number _ => []
  | bool _ => []
  | quality _ => []
  | visits _ => []
  | binary _ lhs rhs => lhs.calls ++ rhs.calls
  | not e => e.calls
  | negate e => e.calls
  | call name args => callsOf args ++ [⟨name, args⟩]

def callsOf : List Expr → List CallNode
  | [] => []
  | e :: es => e.calls ++ callsOf es

end

section Order

variable (engine : Engine) (visits : Visits) (q : Qualities)

def settles (op : BinaryOp) (lhs : Expr) : Bool :=
  (lhs.evaluate engine visits q).toOption.any op.settledBy

mutual

/-- The calls that evaluation comes to, in order, if none before them fails: all but those in
the right operand of a connective that the left one settles. -/
def demanded : Expr → List CallNode
  | number _ => []
  | bool _ => []
  | quality _ => []
  | .visits _ => []
  | binary op lhs rhs =>
    demanded lhs ++ if settles engine visits q op lhs then [] else demanded rhs
  | not e => demanded e
  | negate e => demanded e
  | call name args => demandedOf args ++ [⟨name, args⟩]

def demandedOf : List Expr → List CallNode
  | [] => []
  | e :: es => demanded e ++ demandedOf es

end

end Order

section Sublist

variable {engine : Engine} {visits : Visits} {q : Qualities}

mutual

theorem demanded_sublist (e : Expr) : (e.demanded engine visits q).Sublist e.calls := by
  cases e with
  | number n => exact .refl _
  | bool b => exact .refl _
  | quality name => exact .refl _
  | visits scene => exact .refl _
  | binary op lhs rhs =>
    apply (demanded_sublist lhs).append
    split
    · exact List.nil_sublist _
    · exact demanded_sublist rhs
  | not e => exact demanded_sublist e
  | negate e => exact demanded_sublist e
  | call name args => exact (demandedOf_sublist args).append (.refl _)

theorem demandedOf_sublist (es : List Expr) :
    (demandedOf engine visits q es).Sublist (callsOf es) := by
  cases es with
  | nil => exact .refl _
  | cons e es => exact (demanded_sublist e).append (demandedOf_sublist es)

end

end Sublist

/-- A computation tells of the calls it makes: it succeeds if none of them fails, and otherwise
its error is that with which the engine refuses the first that does. -/
inductive Traced {α : Type} (engine : Engine) (visits : Visits) (q : Qualities) :
    List CallNode → Except EvalError α → Prop where
  | ok {nodes : List CallNode} {a : α}
      (none : nodes.find? (CallNode.fails engine visits q) = none) :
      Traced engine visits q nodes (.ok a)
  | error {nodes : List CallNode} {node : CallNode} {e : EvalError}
      (first : nodes.find? (CallNode.fails engine visits q) = some node)
      (refused : node.Refused engine visits q e) : Traced engine visits q nodes (.error e)

namespace Traced

variable {engine : Engine} {visits : Visits} {q : Qualities} {α β : Type}
  {nodes rest : List CallNode}
  {x : Except EvalError α} {f : α → Except EvalError β}

theorem bind (h : Traced engine visits q nodes x)
    (hf : ∀ a, x = .ok a → Traced engine visits q rest (f a)) :
    Traced engine visits q (nodes ++ rest) (x >>= f) := by
  cases h with
  | error first refused =>
    apply Traced.error _ refused
    rw [List.find?_append, first]
    rfl
  | ok none =>
    have hrest := hf _ rfl
    change Traced engine visits q (nodes ++ rest) (f _)
    revert hrest
    generalize f _ = y
    intro hrest
    cases hrest with
    | ok none' =>
      apply Traced.ok
      rw [List.find?_append, none, none']
      rfl
    | error first refused =>
      apply Traced.error _ refused
      rw [List.find?_append, none, first]
      rfl

theorem map (h : Traced engine visits q nodes x) (g : α → β) :
    Traced engine visits q nodes (x >>= fun a => .ok (g a)) := by
  have hbind : Traced engine visits q (nodes ++ []) (x >>= fun a => .ok (g a)) :=
    h.bind fun a _ => .ok rfl
  rwa [List.append_nil] at hbind

theorem call {name : String} {args : List Expr}
    (h : Traced engine visits q nodes (evaluateAll engine visits q args)) :
    Traced engine visits q (nodes ++ [⟨name, args⟩])
      ((Expr.call name args).evaluate engine visits q) := by
  rw [evaluate]
  apply h.bind
  intro values hvalues
  have hnode : (Expr.call name args).evaluate engine visits q = engine.call name values := by
    rw [evaluate, hvalues]
    rfl
  cases hcall : engine.call name values with
  | ok v =>
    apply Traced.ok
    simp [CallNode.fails, hnode, hcall, Except.isOk, Except.toBool]
  | error e =>
    have hrefused : CallNode.Refused engine visits q ⟨name, args⟩ e := ⟨values, hvalues, hcall⟩
    apply Traced.error _ hrefused
    simp [CallNode.fails, hnode, hcall, Except.isOk, Except.toBool]

end Traced

section Evaluation

variable {engine : Engine} {visits : Visits} {q : Qualities}

mutual

theorem traced_evaluate (e : Expr) :
    Traced engine visits q (e.demanded engine visits q) (e.evaluate engine visits q) := by
  cases e with
  | number n => exact .ok rfl
  | bool b => exact .ok rfl
  | quality name => exact .ok rfl
  | visits scene => exact .ok rfl
  | not e =>
    rw [evaluate, demanded]
    exact (traced_evaluate e).map _
  | negate e =>
    rw [evaluate, demanded]
    exact (traced_evaluate e).map _
  | binary op lhs rhs =>
    rw [evaluate, demanded]
    apply (traced_evaluate lhs).bind
    intro left hleft
    have hsettles : settles engine visits q op lhs = (op.decided? left).isSome := by
      rw [settles, hleft, BinaryOp.isSome_decided?]
      rfl
    rw [hsettles]
    cases op.decided? left with
    | some value => exact .ok rfl
    | none => exact (traced_evaluate rhs).map _
  | call name args =>
    rw [demanded]
    exact (traced_evaluateAll args).call

theorem traced_evaluateAll (es : List Expr) :
    Traced engine visits q (demandedOf engine visits q es)
      (evaluateAll engine visits q es) := by
  cases es with
  | nil => exact .ok rfl
  | cons e es =>
    rw [evaluateAll, demandedOf]
    apply (traced_evaluate e).bind
    intro value _
    exact (traced_evaluateAll es).map _

end

theorem evaluate_eq_error_iff {e : Expr} {err : EvalError} :
    e.evaluate engine visits q = .error err ↔
      ∃ node,
        (e.demanded engine visits q).find? (CallNode.fails engine visits q) = some node ∧
          node.Refused engine visits q err := by
  have htraced : Traced engine visits q _ (e.evaluate engine visits q) := e.traced_evaluate
  constructor
  · intro h
    rw [h] at htraced
    cases htraced with
    | error first refused => exact ⟨_, first, refused⟩
  · intro h
    obtain ⟨node, hfirst, values, hvalues, hcall⟩ := h
    revert htraced
    generalize e.evaluate engine visits q = x
    intro htraced
    cases htraced with
    | ok none => cases none.symm.trans hfirst
    | error first refused =>
      obtain ⟨values', hvalues', hcall'⟩ := refused
      cases first.symm.trans hfirst
      cases hvalues.symm.trans hvalues'
      cases hcall.symm.trans hcall'
      rfl

theorem exists_evaluate {e : Expr} (h : e.calls = []) :
    ∃ value, e.evaluate engine visits q = .ok value := by
  cases hvalue : e.evaluate engine visits q with
  | ok value => exact ⟨value, rfl⟩
  | error err =>
    have hnone : e.demanded engine visits q = [] := by
      apply List.sublist_nil.mp
      rw [← h]
      exact e.demanded_sublist
    obtain ⟨node, hfirst, -⟩ := evaluate_eq_error_iff.mp hvalue
    rw [hnone] at hfirst
    cases hfirst

end Evaluation

end Expr

section CallFree

variable (engine : Engine) (visits : Visits)

theorem Command.exists_apply {c : Command} (h : c.value.calls = []) (q : Qualities) :
    ∃ q', c.apply engine visits q = .ok q' := by
  obtain ⟨value, hvalue⟩ : ∃ value, c.value.evaluate engine visits q = .ok value :=
    Expr.exists_evaluate h
  rw [apply, hvalue]
  exact ⟨_, rfl⟩

theorem Command.applyAll_ok {cs : List Command} (h : ∀ c ∈ cs, c.value.calls = [])
    (q : Qualities) : (applyAll engine visits cs q).2 = .ok () := by
  induction cs generalizing q with
  | nil => rfl
  | cons c cs ih =>
    obtain ⟨next, hnext⟩ := exists_apply engine visits (h c List.mem_cons_self) q
    rw [applyAll, hnext]
    apply ih
    intro d hd
    exact h d (List.mem_cons_of_mem _ hd)

end CallFree

/-- Evaluation fails only through the engine. It gives an error just when some call that it
comes to fails, and then that with which the engine refuses the first of these, given the values
of its arguments. So whatever holds no call has a value in every story: an expression, a command
and a list of commands. -/
theorem Expr.evaluate_fails_by_first_call (engine : Engine) (visits : Visits) (q : Qualities) :
    (∀ e : Expr, (e.demanded engine visits q).Sublist e.calls ∧
      ∀ err, e.evaluate engine visits q = .error err ↔
        ∃ node values,
        (e.demanded engine visits q).find? (CallNode.fails engine visits q) = some node ∧
          evaluateAll engine visits q node.args = .ok values ∧
          engine.call node.name values = .error err) ∧
      (∀ e : Expr, e.calls = [] → ∃ value, e.evaluate engine visits q = .ok value) ∧
      (∀ c : Command, c.value.calls = [] → ∃ q', c.apply engine visits q = .ok q') ∧
      ∀ cs : List Command, (∀ c ∈ cs, c.value.calls = []) →
        (Command.applyAll engine visits cs q).2 = .ok () ∧
          ((Program.actions cs).run engine visits q).2 = .ok (.applied cs.length) := by
  refine ⟨?_, fun e => exists_evaluate, fun c hc => c.exists_apply engine visits hc q, ?_⟩
  · intro e
    apply And.intro e.demanded_sublist
    intro err
    rw [evaluate_eq_error_iff]
    constructor
    · intro h
      obtain ⟨node, hfirst, values, hvalues, hcall⟩ := h
      exact ⟨node, values, hfirst, hvalues, hcall⟩
    · intro h
      obtain ⟨node, values, hfirst, hvalues, hcall⟩ := h
      exact ⟨node, hfirst, values, hvalues, hcall⟩
  · intro cs hcs
    have hall := Command.applyAll_ok engine visits hcs q
    apply And.intro hall
    simp only [Program.run, hall, Except.map]

def Expr.choice : Expr :=
  .binary .or (.binary .and (.bool false) (.call "missing" []))
    (.binary .add (.call "abs" [.quality "gold"])
      (.call "abs" [.call "max" [.quality "gold"], .visits "cellar"]))

/-- The call behind `false and` is not made, those of `abs` and `max` with one argument succeed
though nothing is set, and the one with two arguments is refused. Without calls a command on
unset qualities goes through. -/
theorem Expr.choice_fails :
    let engine := FunctionTable.standard.engine
    choice.evaluate engine .empty .empty =
      .error (.function "abs" "expected 1 argument, got 2") ∧
      choice.calls.length = 4 ∧ (choice.demanded engine .empty .empty).length = 3 ∧
      (∃ node values,
        (choice.demanded engine .empty .empty).find? (CallNode.fails engine .empty .empty) =
            some node ∧
          evaluateAll engine .empty .empty node.args = .ok values ∧
          engine.call node.name values =
            .error (.function "abs" "expected 1 argument, got 2")) ∧
      (Command.applyAll engine .empty [⟨"gold", .div, .negate (.quality "purse")⟩] .empty).2 =
        .ok () := by
  intro engine
  have herror :
      choice.evaluate engine .empty .empty =
        .error (.function "abs" "expected 1 argument, got 2") := rfl
  obtain ⟨hfirst, -, -, hcommands⟩ := evaluate_fails_by_first_call engine .empty .empty
  exact ⟨herror, rfl, rfl, ((hfirst choice).2 _).mp herror, (hcommands _ (by simp [calls])).1⟩

end Fabula
