import Mathlib
import Fabula.Logic.Evaluation
import Fabula.Proofs.Grammar.Recasting
import Fabula.Proofs.Logic.Footprint
import Fabula.Proofs.Logic.Sorts

namespace Fabula

variable (r : String → String)

def Token.rename (t : Token LogicTag) : Token LogicTag :=
  if t.tag = some .identifier then { t with text := r t.text } else t

/-- The token at another place. -/
def Token.moved (place : Nat → Nat) (t : Token LogicTag) : Token LogicTag :=
  { t with start := place t.start }

namespace Expr

mutual

/-- The expression with every quality and function renamed. -/
def rename : Expr → Expr
  | number n => number n
  | bool b => bool b
  | quality name => quality (r name)
  | visits scene => visits scene
  | binary op lhs rhs => binary op (rename lhs) (rename rhs)
  | not e => not (rename e)
  | negate e => negate (rename e)
  | call name args => call (r name) (renameAll args)

def renameAll : List Expr → List Expr
  | [] => []
  | e :: es => rename e :: renameAll es

end

theorem renameAll_eq_map (es : List Expr) : renameAll r es = es.map (rename r) := by
  induction es with
  | nil => rfl
  | cons e es ih => rw [renameAll, ih, List.map_cons]

end Expr

def Command.rename (c : Command) : Command := ⟨r c.quality, c.op, c.value.rename r⟩

def Phrase.rename : Phrase → Phrase
  | expr e => expr (e.rename r)
  | command c => command (c.rename r)
  | commands cs => commands (cs.map (Command.rename r))
  | arguments es => arguments (es.map (Expr.rename r))

def Program.rename : Program → Program
  | predicate e => predicate (e.rename r)
  | expression e => expression (e.rename r)
  | actions commands => actions (commands.map (Command.rename r))

def Qualities.rename (q : Qualities) : Qualities :=
  ⟨q.entries.map fun entry => (r entry.1, entry.2)⟩

section Reading

theorem Token.rename_of_identifier {t : Token LogicTag} (h : t.tag = some .identifier) :
    t.rename r = { t with text := r t.text } :=
  if_pos h

theorem Token.rename_of_ne {t : Token LogicTag} {tag : LogicTag} (h : t.tag = some tag)
    (hne : tag ≠ .identifier) : t.rename r = t := by
  apply if_neg
  rw [h]
  simpa using hne

theorem Token.tag_rename (t : Token LogicTag) : (t.rename r).tag = t.tag := by
  unfold rename
  split <;> rfl

theorem Expr.rename_opposite (e : Expr) :
    (Phrase.opposite e).rename r = Phrase.opposite (e.rename r) := by
  cases e <;> simp only [Phrase.opposite, rename]

end Reading

namespace Logic

/-- Renaming in tokens that may also be moved, and in what is read from them. -/
def recast (place : Nat → Nat) : Recasting LogicTag Phrase where
  token t := (t.rename r).moved place
  value := Phrase.rename r
  tag_token := Token.tag_rename r

variable {r} {place : Nat → Nat} {c d d' : Category} {tag tag' : LogicTag} {t : Token LogicTag}

theorem child_identifier (h : t.tag = some .identifier) :
    (recast r place).child (.token t) =
      .token { t with start := place t.start, text := r t.text } :=
  congrArg (fun u : Token LogicTag => Child.token (u.moved place)) (t.rename_of_identifier r h)

theorem child_of_ne (h : t.tag = some tag) (hne : tag ≠ .identifier) :
    (recast r place).child (.token t) = .token (t.moved place) :=
  congrArg (fun u : Token LogicTag => Child.token (u.moved place)) (t.rename_of_ne r h hne)

theorem respects_pass {more : List (Symbol Category LogicTag)} :
    (recast r place).Respects ⟨c, cat d :: more, Phrase.pass⟩ := by
  intro given hs
  obtain ⟨v, rest, rfl, -, -⟩ := Sorting.suits_nonterminal hs
  exact .ok rfl

theorem respects_truth {b : Bool} {symbols : List (Symbol Category LogicTag)} :
    (recast r place).Respects ⟨c, symbols, Phrase.truth b⟩ := by
  intro given hs
  exact .ok rfl

theorem respects_parenthesized :
    (recast r place).Respects ⟨c, [tok tag, cat d, tok tag'], Phrase.parenthesized⟩ := by
  intro given hs
  obtain ⟨t, rest, rfl, -, -, hs⟩ := Sorting.suits_terminal hs
  obtain ⟨v, rest, rfl, -, hs⟩ := Sorting.suits_nonterminal hs
  obtain ⟨t', rfl, -, -⟩ := suits_word hs
  cases v with
  | expr e => exact .ok rfl
  | _ => exact .error _ _

theorem respects_binary {op : BinaryOp} :
    (recast r place).Respects ⟨c, [cat d, tok tag, cat d'], Phrase.binary op⟩ := by
  intro given hs
  obtain ⟨a, t, b, rfl, -, -⟩ := suits_between hs
  cases a with
  | expr lhs =>
    cases b with
    | expr rhs => exact .ok rfl
    | _ => exact .error _ _
  | _ => exact .error _ _

theorem respects_not : (recast r place).Respects ⟨c, [tok tag, cat d], Phrase.not⟩ := by
  intro given hs
  obtain ⟨t, v, rfl, -⟩ := suits_unary hs
  cases v with
  | expr e => exact .ok rfl
  | _ => exact .error _ _

theorem respects_negate : (recast r place).Respects ⟨c, [tok tag, cat d], Phrase.negate⟩ := by
  intro given hs
  obtain ⟨t, v, rfl, -⟩ := suits_unary hs
  cases v with
  | expr e => exact .ok (congrArg Phrase.expr (e.rename_opposite r).symm)
  | _ => exact .error _ _

theorem respects_number : (recast r place).Respects ⟨c, [tok .number], Phrase.number⟩ := by
  intro given hs
  obtain ⟨t, rfl, htag, -⟩ := suits_word hs
  rw [List.map_singleton, child_of_ne htag (by decide)]
  cases hread : Number.read? t.text with
  | none =>
    have herror {t' : Token LogicTag} (h : t'.text = t.text) :
        ∃ message, Phrase.number [.token t'] = .error message := by
      simp [Phrase.number, Child.asToken, bind, Except.bind, h, hread]
    obtain ⟨message, hmessage⟩ := herror rfl
    obtain ⟨message', hmessage'⟩ := herror (show (t.moved place).text = t.text from rfl)
    dsimp only
    rw [hmessage, hmessage']
    exact .error _ _
  | some n =>
    have hread' : Number.read? (t.moved place).text = some n := hread
    dsimp only
    rw [Phrase.number_of_read hread, Phrase.number_of_read hread']
    exact .ok rfl

theorem respects_quality :
    (recast r place).Respects ⟨c, [tok .identifier], Phrase.quality⟩ := by
  intro given hs
  obtain ⟨t, rfl, htag, -⟩ := suits_word hs
  rw [List.map_singleton, child_identifier htag]
  exact .ok rfl

theorem respects_visits : (recast r place).Respects ⟨c, [tok .visit], Phrase.visits⟩ := by
  intro given hs
  obtain ⟨t, rfl, htag, -⟩ := suits_word hs
  rw [List.map_singleton, child_of_ne htag (by decide)]
  exact .ok rfl

theorem respects_call_nil :
    (recast r place).Respects ⟨c, [tok .identifier, tok tag, tok tag'], Phrase.call⟩ := by
  intro given hs
  obtain ⟨t, rest, rfl, htag, -, hs⟩ := Sorting.suits_terminal hs
  obtain ⟨_, rest, rfl, -, -, hs⟩ := Sorting.suits_terminal hs
  obtain ⟨_, rfl, -, -⟩ := suits_word hs
  rw [List.map_cons, child_identifier htag]
  exact .ok rfl

theorem respects_call :
    (recast r place).Respects
      ⟨c, [tok .identifier, tok tag, cat d, tok tag'], Phrase.call⟩ := by
  intro given hs
  obtain ⟨t, rest, rfl, htag, -, hs⟩ := Sorting.suits_terminal hs
  obtain ⟨_, rest, rfl, -, -, hs⟩ := Sorting.suits_terminal hs
  obtain ⟨v, rest, rfl, -, hs⟩ := Sorting.suits_nonterminal hs
  obtain ⟨_, rfl, -, -⟩ := suits_word hs
  rw [List.map_cons, child_identifier htag]
  cases v with
  | arguments es =>
    apply Parallel.ok
    simp [recast, Recasting.child, Phrase.argumentsOf, Phrase.rename, Expr.rename,
      Expr.renameAll_eq_map]
  | _ => exact .ok rfl

theorem respects_firstArgument :
    (recast r place).Respects ⟨c, [cat d], Phrase.firstArgument⟩ := by
  intro given hs
  obtain ⟨v, rfl, -⟩ := suits_single hs
  cases v with
  | expr e => exact .ok rfl
  | _ => exact .error _ _

theorem respects_nextArgument :
    (recast r place).Respects ⟨c, [cat d, tok tag, cat d'], Phrase.nextArgument⟩ := by
  intro given hs
  obtain ⟨a, t, b, rfl, -, -⟩ := suits_between hs
  cases a with
  | arguments es =>
    cases b with
    | expr e => exact .ok (by simp [recast, Phrase.rename])
    | _ => exact .error _ _
  | _ => exact .error _ _

theorem respects_assign {op : AssignOp} :
    (recast r place).Respects ⟨c, [tok .identifier, tok tag, cat d], Phrase.assign op⟩ := by
  intro given hs
  obtain ⟨t, rest, rfl, htag, -, hs⟩ := Sorting.suits_terminal hs
  obtain ⟨_, v, rfl, -⟩ := suits_unary hs
  rw [List.map_cons, child_identifier htag]
  cases v with
  | expr e => exact .ok rfl
  | _ => exact .error _ _

theorem respects_firstCommand :
    (recast r place).Respects ⟨c, [cat d], Phrase.firstCommand⟩ := by
  intro given hs
  obtain ⟨v, rfl, -⟩ := suits_single hs
  cases v with
  | command c => exact .ok rfl
  | _ => exact .error _ _

theorem respects_nextCommand :
    (recast r place).Respects ⟨c, [cat d, tok tag, cat d'], Phrase.nextCommand⟩ := by
  intro given hs
  obtain ⟨a, t, b, rfl, -, -⟩ := suits_between hs
  cases a with
  | commands cs =>
    cases b with
    | command c => exact .ok (by simp [recast, Phrase.rename])
    | _ => exact .error _ _
  | _ => exact .error _ _

/-- Every action goes along with a renaming, wherever the tokens stand. -/
theorem productions_respected : ∀ q ∈ grammar.productions, (recast r place).Respects q := by
  simp [grammar, productions, respects_pass, respects_truth, respects_parenthesized,
    respects_binary, respects_not, respects_negate, respects_number, respects_quality,
    respects_visits, respects_call_nil, respects_call, respects_firstArgument,
    respects_nextArgument, respects_assign, respects_firstCommand, respects_nextCommand]

theorem parse_rename (root : Category) (tokens : List (Token LogicTag)) :
    (grammar.parse root (tokens.map (Token.rename r))).toOption =
      (grammar.parse root tokens).toOption.map (Phrase.rename r) := by
  have htoken : (recast r id).token = Token.rename r := rfl
  have hparse : Parallel (fun v v' => v' = v.rename r) (grammar.parse root tokens)
      (grammar.parse root (tokens.map (Token.rename r))) := by
    rw [← htoken]
    exact Recasting.parse productions_respected root tokens
  exact hparse.toOption_map

end Logic

theorem Program.ofPhrase?_rename (root : RootKind) (v : Phrase) :
    ofPhrase? root (v.rename r) = (ofPhrase? root v).map (Program.rename r) := by
  cases root <;> cases v <;> rfl

section Running

variable {r} (hr : r.Injective) {engine engine' : Engine}
  (hcall : ∀ name args, engine'.call (r name) args = engine.call name args) (visits : Visits)
  (q : Qualities)

include hr in
theorem Qualities.get_rename (name : String) : (q.rename r).get (r name) = q.get name := by
  obtain ⟨entries⟩ := q
  have hlookup :
      (entries.map fun entry => (r entry.1, entry.2)).lookup (r name) =
        entries.lookup name := by
    induction entries with
    | nil => rfl
    | cons entry entries ih =>
      have hbeq : (r name == r entry.1) = (name == entry.1) := by simp [hr.eq_iff]
      rw [List.map_cons, List.lookup_cons, List.lookup_cons, hbeq, ih]
  exact congrArg (Option.getD · .zero) hlookup

include hr in
theorem Qualities.set_rename (name : String) (value : Value) :
    (q.rename r).set (r name) value = (q.set name value).rename r := by
  obtain ⟨entries⟩ := q
  have hset : setIn (r name) value (entries.map fun entry => (r entry.1, entry.2)) =
      (setIn name value entries).map fun entry => (r entry.1, entry.2) := by
    induction entries with
    | nil => rfl
    | cons entry entries ih =>
      simp only [List.map_cons, setIn, beq_iff_eq, hr.eq_iff]
      split
      · rfl
      · rw [List.map_cons, ih]
  exact congrArg Qualities.mk hset

variable {visits q}

mutual

theorem Expr.evaluate_rename (hr : r.Injective)
    (hcall : ∀ name args, engine'.call (r name) args = engine.call name args) (e : Expr) :
    (e.rename r).evaluate engine' visits (q.rename r) = e.evaluate engine visits q := by
  cases e with
  | number n => rfl
  | bool b => rfl
  | quality name =>
    rw [rename, evaluate, evaluate, q.get_rename hr]
  | visits scene => rfl
  | binary op lhs rhs =>
    rw [rename, evaluate, evaluate, evaluate_rename hr hcall lhs]
    simp only [evaluate_rename hr hcall rhs]
  | not e => rw [rename, evaluate, evaluate, evaluate_rename hr hcall e]
  | negate e => rw [rename, evaluate, evaluate, evaluate_rename hr hcall e]
  | call name args =>
    rw [rename, evaluate, evaluate, evaluateAll_rename hr hcall args]
    simp only [hcall]

theorem Expr.evaluateAll_rename (hr : r.Injective)
    (hcall : ∀ name args, engine'.call (r name) args = engine.call name args) (es : List Expr) :
    evaluateAll engine' visits (q.rename r) (renameAll r es) =
      evaluateAll engine visits q es := by
  cases es with
  | nil => rfl
  | cons e es =>
    rw [renameAll, evaluateAll, evaluateAll, evaluate_rename hr hcall e,
      evaluateAll_rename hr hcall es]

end

include hr hcall

theorem Command.apply_rename (c : Command) :
    (c.rename r).apply engine' visits (q.rename r) =
      (c.apply engine visits q).map (Qualities.rename r) := by
  unfold apply
  rw [rename, Expr.evaluate_rename hr hcall]
  cases c.value.evaluate engine visits q with
  | error e => rfl
  | ok value => exact congrArg Except.ok (by rw [q.get_rename hr, q.set_rename hr])

/-- Also a run that fails half-way leaves the same qualities behind. -/
theorem Command.applyAll_rename (cs : List Command) :
    applyAll engine' visits (cs.map (Command.rename r)) (q.rename r) =
      ((applyAll engine visits cs q).1.rename r, (applyAll engine visits cs q).2) := by
  induction cs generalizing q with
  | nil => rfl
  | cons c cs ih =>
    rw [List.map_cons, applyAll, applyAll, apply_rename hr hcall]
    cases c.apply engine visits q with
    | error e => rfl
    | ok next => exact ih

theorem Program.run_rename (p : Program) :
    (p.rename r).run engine' visits (q.rename r) =
      ((p.run engine visits q).1.rename r, (p.run engine visits q).2) := by
  cases p with
  | predicate e => rw [rename, run, run, e.evaluate_rename hr hcall]
  | expression e => rw [rename, run, run, e.evaluate_rename hr hcall]
  | actions commands =>
    simp only [rename, run, Command.applyAll_rename hr hcall, List.length_map]

end Running

/-- Renaming commutes with reading and with running. Tokens with their names changed are read if
the tokens are, as the same phrase with its names changed, under every root; and if no two names
become one, a renamed program run with renamed qualities, by an engine that knows each function
by its new name, has the outcome that it had and leaves the qualities that it left, renamed. -/
theorem Logic.renaming_commutes :
    (∀ (root : Category) (tokens : List (Token LogicTag)),
      (grammar.parse root (tokens.map (Token.rename r))).toOption =
        (grammar.parse root tokens).toOption.map (Phrase.rename r)) ∧
    (∀ (root : RootKind) (v : Phrase),
      Program.ofPhrase? root (v.rename r) = (Program.ofPhrase? root v).map (Program.rename r)) ∧
    (r.Injective → ∀ (p : Program) (engine engine' : Engine) (visits : Visits) (q : Qualities),
      (∀ name args, engine'.call (r name) args = engine.call name args) →
        (p.rename r).run engine' visits (q.rename r) =
          ((p.run engine visits q).1.rename r, (p.run engine visits q).2)) :=
  ⟨parse_rename, Program.ofPhrase?_rename r,
    fun hr p _ _ _ _ hcall => p.run_rename hr hcall⟩

/-- The raid in a story whose names all got a mark in front. The engine takes the mark off
before it looks a function up, so the call fails by the old name, after the gold of the first
command and beside the health that no command touches. -/
theorem Logic.raid_renamed :
    let mark : String → String := fun name => "my_" ++ name
    let engine := FunctionTable.standard.engine
    let engine' : Engine :=
      ⟨fun name args => engine.call (String.ofList (name.toList.drop 3)) args, engine.format,
        engine.runScript⟩
    let visits : Visits := ⟨[("cellar", 2)]⟩
    let q : Qualities := ⟨[("gold", .number 3), ("health", .number 5)]⟩
    mark.Injective ∧ (∀ name args, engine'.call (mark name) args = engine.call name args) ∧
      (Program.raid.rename mark).run engine' visits (q.rename mark) =
        ((Program.raid.run engine visits q).1.rename mark,
          (Program.raid.run engine visits q).2) ∧
      (Program.raid.run engine visits q).2.isOk = false ∧
      ((Program.raid.run engine visits q).1.rename mark).get? "my_health" =
        some (.number 5) := by
  intro mark engine engine' visits q
  have hinjective : mark.Injective := by
    intro a b h
    simpa [mark, String.ext_iff] using h
  have hcall : ∀ name args, engine'.call (mark name) args = engine.call name args := by
    intro name args
    simp [mark, engine']
  obtain ⟨-, -, hrun⟩ := renaming_commutes mark
  exact ⟨hinjective, hcall,
    hrun hinjective Program.raid engine engine' visits q hcall, rfl, rfl⟩

end Fabula
