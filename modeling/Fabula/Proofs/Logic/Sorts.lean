import Mathlib
import Fabula.Logic.Dialect
import Fabula.Proofs.Grammar.Sorting
import Fabula.Proofs.Logic.Printing
import Fabula.Proofs.Logic.Unambiguous
import Fabula.Proofs.Logic.Words

namespace Fabula

/-- The name is an identifier among the tokens, and no keyword. -/
def Named (tokens : List (Token LogicTag)) (name : String) : Prop :=
  (∃ t ∈ tokens, t.tag = some .identifier ∧ t.text = name) ∧ ¬ Lexicon.IsKeyword name

/-- The scene is one that a visit among the tokens refers to. -/
def Referred (tokens : List (Token LogicTag)) (scene : String) : Prop :=
  ∃ t ∈ tokens, t.tag = some .visit ∧ t.text = "@" ++ scene

namespace Expr

/-- The numbers are any, and names and scenes are those of the tokens. -/
def found (tokens : List (Token LogicTag)) : Vocabulary where
  number _ := True
  name := Named tokens
  scene := Referred tokens

theorem Amount.opposite {tokens : List (Token LogicTag)} {e : Expr}
    (h : e.Amount (found tokens)) : (Phrase.opposite e).Amount (found tokens) := by
  cases e with
  | number n => exact .number trivial
  | _ => exact .negate h (by simp)

end Expr

/-- The command gives a name of the tokens an amount. -/
structure Command.Sorted (tokens : List (Token LogicTag)) (c : Command) : Prop where
  named : Named tokens c.quality
  value : c.value.Amount (Expr.found tokens)

/-- The program is of the sort that its root calls for. -/
inductive Program.Sorted (tokens : List (Token LogicTag)) : Program → Prop where
  | predicate {e : Expr} (condition : e.Condition (Expr.found tokens)) :
      Sorted tokens (.predicate e)
  | expression {e : Expr} (amount : e.Amount (Expr.found tokens)) :
      Sorted tokens (.expression e)
  | actions {cs : List Command} (filled : cs ≠ []) (each : ∀ c ∈ cs, c.Sorted tokens) :
      Sorted tokens (.actions cs)

inductive PhraseSort where
  | amount | condition | command | commands | arguments
  deriving DecidableEq

namespace Category

def sort : Category → PhraseSort
  | sum | product | signed | atom | expression => .amount
  | predicate | disjunction | conjunction | negation | condition | strict | comparison =>
    .condition
  | command => .command
  | commands | actions => .commands
  | arguments => .arguments

end Category

namespace BinaryOp

def operandSort : BinaryOp → PhraseSort
  | and | or => .condition
  | _ => .amount

def resultSort : BinaryOp → PhraseSort
  | add | sub | mul | div | mod => .amount
  | _ => .condition

theorem operandSort_cases (op : BinaryOp) :
    op.operandSort = .amount ∨ op.operandSort = .condition := by
  cases op <;> decide

end BinaryOp

namespace Phrase

inductive Fits (tokens : List (Token LogicTag)) : PhraseSort → Phrase → Prop where
  | amount {e : Expr} (h : e.Amount (Expr.found tokens)) : Fits tokens .amount (.expr e)
  | condition {e : Expr} (h : e.Condition (Expr.found tokens)) :
      Fits tokens .condition (.expr e)
  | command {c : Command} (h : c.Sorted tokens) : Fits tokens .command (.command c)
  | commands {cs : List Command} (filled : cs ≠ []) (each : ∀ c ∈ cs, c.Sorted tokens) :
      Fits tokens .commands (.commands cs)
  | arguments {es : List Expr} (each : ∀ e ∈ es, e.Amount (Expr.found tokens)) :
      Fits tokens .arguments (.arguments es)

variable {tokens : List (Token LogicTag)} {v : Phrase}

namespace Fits

theorem exists_amount (h : Fits tokens .amount v) :
    ∃ e, v = .expr e ∧ e.Amount (Expr.found tokens) := by
  cases h with
  | amount h => exact ⟨_, rfl, h⟩

theorem exists_condition (h : Fits tokens .condition v) :
    ∃ e, v = .expr e ∧ e.Condition (Expr.found tokens) := by
  cases h with
  | condition h => exact ⟨_, rfl, h⟩

theorem exists_expr {sort : PhraseSort} (h : Fits tokens sort v)
    (hs : sort = .amount ∨ sort = .condition) : ∃ e, v = .expr e := by
  rcases hs with rfl | rfl
  · obtain ⟨e, rfl, -⟩ := h.exists_amount
    exact ⟨e, rfl⟩
  · obtain ⟨e, rfl, -⟩ := h.exists_condition
    exact ⟨e, rfl⟩

theorem binary {op : BinaryOp} {lhs rhs : Expr} (hl : Fits tokens op.operandSort (.expr lhs))
    (hr : Fits tokens op.operandSort (.expr rhs)) :
    Fits tokens op.resultSort (.expr (.binary op lhs rhs)) := by
  cases op
  case add | sub | mul | div | mod =>
    cases hl with
    | amount hl =>
      cases hr with
      | amount hr => exact .amount (.binary (by decide) hl hr)
  case eq | notEq | lt | le | gt | ge =>
    cases hl with
    | amount hl =>
      cases hr with
      | amount hr => exact .condition (.comparison (by decide) hl hr)
  case and | or =>
    cases hl with
    | condition hl =>
      cases hr with
      | condition hr => exact .condition (.connective (by decide) hl hr)

end Fits

end Phrase

namespace Logic

variable {tokens : List (Token LogicTag)} {c d d' : Category} {tag tag' : LogicTag}
  {op : BinaryOp}

/-- The phrases of a category are of its sort, and the tokens are as the scanner gives them. -/
def sorting (tokens : List (Token LogicTag)) : Sorting Category LogicTag Phrase where
  token t := t ∈ tokens ∧ t.Apt
  value c v := v.Fits tokens c.sort

section Shapes

variable {given : Phrase.Children} {S : Sorting Category LogicTag Phrase}

theorem suits_word (h : List.Forall₂ S.Suits [tok tag] given) :
    ∃ t, given = [.token t] ∧ t.tag = some tag ∧ S.token t := by
  obtain ⟨t, rest, rfl, htag, ht, h⟩ := Sorting.suits_terminal h
  cases h
  exact ⟨t, rfl, htag, ht⟩

theorem suits_single (h : List.Forall₂ S.Suits [cat d] given) :
    ∃ v, given = [.value v] ∧ S.value d v := by
  obtain ⟨v, rest, rfl, hv, h⟩ := Sorting.suits_nonterminal h
  cases h
  exact ⟨v, rfl, hv⟩

theorem suits_unary (h : List.Forall₂ S.Suits [tok tag, cat d] given) :
    ∃ t v, given = [.token t, .value v] ∧ S.value d v := by
  obtain ⟨t, rest, rfl, -, -, h⟩ := Sorting.suits_terminal h
  obtain ⟨v, rfl, hv⟩ := suits_single h
  exact ⟨t, v, rfl, hv⟩

theorem suits_between (h : List.Forall₂ S.Suits [cat d, tok tag, cat d'] given) :
    ∃ a t b, given = [.value a, .token t, .value b] ∧ S.value d a ∧ S.value d' b := by
  obtain ⟨a, rest, rfl, ha, h⟩ := Sorting.suits_nonterminal h
  obtain ⟨t, b, rfl, hb⟩ := suits_unary h
  exact ⟨a, t, b, rfl, ha, hb⟩

end Shapes

theorem value_iff {sort : PhraseSort} {v : Phrase} (h : c.sort = sort) :
    (sorting tokens).value c v ↔ v.Fits tokens sort := by
  rw [← h]
  rfl

theorem admits_pass {more : List (Symbol Category LogicTag)} (h : d.sort = c.sort) :
    (sorting tokens).Admits ⟨c, cat d :: more, Phrase.pass⟩ := by
  intro given hs
  obtain ⟨v, rest, rfl, hv, -⟩ := Sorting.suits_nonterminal hs
  exact ⟨v, rfl, (value_iff h).mp hv⟩

theorem admits_pass_amount (hc : c.sort = .condition) (hd : d.sort = .amount) :
    (sorting tokens).Admits ⟨c, [cat d], Phrase.pass⟩ := by
  intro given hs
  obtain ⟨v, rfl, hv⟩ := suits_single hs
  obtain ⟨e, rfl, he⟩ := ((value_iff hd).mp hv).exists_amount
  exact ⟨_, rfl, (value_iff hc).mpr (.condition (.amount he))⟩

theorem admits_truth {b : Bool} (hc : c.sort = .condition) :
    (sorting tokens).Admits ⟨c, [tok tag], Phrase.truth b⟩ :=
  fun _ _ => ⟨_, rfl, (value_iff hc).mpr (.condition .bool)⟩

theorem admits_parenthesized (hc : c.sort = .amount ∨ c.sort = .condition)
    (hd : d.sort = c.sort) :
    (sorting tokens).Admits ⟨c, [tok tag, cat d, tok tag'], Phrase.parenthesized⟩ := by
  intro given hs
  obtain ⟨t, rest, rfl, -, -, hs⟩ := Sorting.suits_terminal hs
  obtain ⟨v, rest, rfl, hv, hs⟩ := Sorting.suits_nonterminal hs
  obtain ⟨t', rfl, -, -⟩ := suits_word hs
  replace hv := (value_iff hd).mp hv
  obtain ⟨e, rfl⟩ := hv.exists_expr hc
  exact ⟨_, rfl, hv⟩

theorem admits_binary (hc : c.sort = op.resultSort) (hd : d.sort = op.operandSort)
    (hd' : d'.sort = op.operandSort) :
    (sorting tokens).Admits ⟨c, [cat d, tok tag, cat d'], Phrase.binary op⟩ := by
  intro given hs
  obtain ⟨a, t, b, rfl, ha, hb⟩ := suits_between hs
  replace ha := (value_iff hd).mp ha
  replace hb := (value_iff hd').mp hb
  obtain ⟨lhs, rfl⟩ := ha.exists_expr op.operandSort_cases
  obtain ⟨rhs, rfl⟩ := hb.exists_expr op.operandSort_cases
  exact ⟨_, rfl, (value_iff hc).mpr (.binary ha hb)⟩

theorem admits_not (hc : c.sort = .condition) (hd : d.sort = .condition) :
    (sorting tokens).Admits ⟨c, [tok tag, cat d], Phrase.not⟩ := by
  intro given hs
  obtain ⟨t, v, rfl, hv⟩ := suits_unary hs
  obtain ⟨e, rfl, he⟩ := ((value_iff hd).mp hv).exists_condition
  exact ⟨_, rfl, (value_iff hc).mpr (.condition (.not he))⟩

theorem admits_negate (hc : c.sort = .amount) (hd : d.sort = .amount) :
    (sorting tokens).Admits ⟨c, [tok tag, cat d], Phrase.negate⟩ := by
  intro given hs
  obtain ⟨t, v, rfl, hv⟩ := suits_unary hs
  obtain ⟨e, rfl, he⟩ := ((value_iff hd).mp hv).exists_amount
  exact ⟨_, rfl, (value_iff hc).mpr (.amount he.opposite)⟩

theorem named_of_token {t : Token LogicTag} (htag : t.tag = some .identifier)
    (ht : (sorting tokens).token t) : Named tokens t.text :=
  ⟨⟨t, ht.1, htag, rfl⟩, ht.2.identifier htag⟩

theorem admits_number : (sorting tokens).Admits ⟨.atom, [tok .number], Phrase.number⟩ := by
  intro given hs
  obtain ⟨t, rfl, htag, -, ht⟩ := suits_word hs
  obtain ⟨n, hn⟩ := ht.number htag
  exact ⟨.expr (.number n), Phrase.number_of_read hn, .amount (.number trivial)⟩

theorem admits_quality :
    (sorting tokens).Admits ⟨.atom, [tok .identifier], Phrase.quality⟩ := by
  intro given hs
  obtain ⟨t, rfl, htag, ht⟩ := suits_word hs
  exact ⟨_, rfl, .amount (.quality (named_of_token htag ht))⟩

theorem admits_visits : (sorting tokens).Admits ⟨.atom, [tok .visit], Phrase.visits⟩ := by
  intro given hs
  obtain ⟨t, rfl, htag, hmem, ht⟩ := suits_word hs
  exact ⟨_, rfl, .amount (.visits ⟨t, hmem, htag, ht.visit htag⟩)⟩

theorem admits_call_nil :
    (sorting tokens).Admits ⟨.atom, [tok .identifier, tok tag, tok tag'], Phrase.call⟩ := by
  intro given hs
  obtain ⟨t, rest, rfl, htag, ht, hs⟩ := Sorting.suits_terminal hs
  obtain ⟨_, rest, rfl, -, -, hs⟩ := Sorting.suits_terminal hs
  obtain ⟨_, rfl, -, -⟩ := suits_word hs
  exact ⟨.expr (.call t.text []), rfl, .amount (.call (named_of_token htag ht) (by simp))⟩

theorem admits_call :
    (sorting tokens).Admits
      ⟨.atom, [tok .identifier, tok tag, cat .arguments, tok tag'], Phrase.call⟩ := by
  intro given hs
  obtain ⟨t, rest, rfl, htag, ht, hs⟩ := Sorting.suits_terminal hs
  obtain ⟨_, rest, rfl, -, -, hs⟩ := Sorting.suits_terminal hs
  obtain ⟨v, rest, rfl, hv, hs⟩ := Sorting.suits_nonterminal hs
  obtain ⟨_, rfl, -, -⟩ := suits_word hs
  cases hv with
  | arguments each => exact ⟨_, rfl, .amount (.call (named_of_token htag ht) each)⟩

theorem admits_firstArgument :
    (sorting tokens).Admits ⟨.arguments, [cat .sum], Phrase.firstArgument⟩ := by
  intro given hs
  obtain ⟨v, rfl, hv⟩ := suits_single hs
  cases hv with
  | amount he => exact ⟨_, rfl, .arguments (by simpa using he)⟩

theorem admits_nextArgument :
    (sorting tokens).Admits
      ⟨.arguments, [cat .arguments, tok tag, cat .sum], Phrase.nextArgument⟩ := by
  intro given hs
  obtain ⟨a, t, b, rfl, ha, hb⟩ := suits_between hs
  cases ha with
  | arguments each =>
    cases hb with
    | amount he => exact ⟨_, rfl, .arguments (by simpa [or_imp, forall_and] using ⟨each, he⟩)⟩

theorem admits_assign {op : AssignOp} :
    (sorting tokens).Admits
      ⟨.command, [tok .identifier, tok tag, cat .sum], Phrase.assign op⟩ := by
  intro given hs
  obtain ⟨t, rest, rfl, htag, ht, hs⟩ := Sorting.suits_terminal hs
  obtain ⟨_, v, rfl, hv⟩ := suits_unary hs
  cases hv with
  | amount he => exact ⟨_, rfl, .command ⟨named_of_token htag ht, he⟩⟩

theorem admits_firstCommand :
    (sorting tokens).Admits ⟨.commands, [cat .command], Phrase.firstCommand⟩ := by
  intro given hs
  obtain ⟨v, rfl, hv⟩ := suits_single hs
  cases hv with
  | command hc => exact ⟨_, rfl, .commands (by simp) (by simpa using hc)⟩

theorem admits_nextCommand :
    (sorting tokens).Admits
      ⟨.commands, [cat .commands, tok tag, cat .command], Phrase.nextCommand⟩ := by
  intro given hs
  obtain ⟨a, t, b, rfl, ha, hb⟩ := suits_between hs
  cases ha with
  | commands filled each =>
    cases hb with
    | command hc =>
      exact ⟨_, rfl, .commands (by simp) (by simpa [or_imp, forall_and] using ⟨each, hc⟩)⟩

theorem productions_admitted : ∀ q ∈ grammar.productions, (sorting tokens).Admits q := by
  simp (disch := decide) [grammar, productions, admits_pass, admits_pass_amount, admits_truth,
    admits_parenthesized, admits_binary, admits_not, admits_negate, admits_number,
    admits_quality, admits_visits, admits_call_nil, admits_call, admits_firstArgument,
    admits_nextArgument, admits_assign, admits_firstCommand, admits_nextCommand]

/-- Tokens of the scanner are parsed to a phrase of the right sort, or not derived at all. -/
theorem parse_sorted {root : Category} (h : ∀ t ∈ tokens, t.Apt) (hr : root ∈ grammar.roots) :
    (∃ v, grammar.parse root tokens = .ok v ∧ v.Fits tokens root.sort) ∨
      ∃ offset found, grammar.parse root tokens = .error (.noParse offset found) := by
  rcases Grammar.parse_suits productions_admitted (S := sorting tokens)
    (fun t ht => ⟨ht, h t ht⟩) hr with
    hok | hnone | ⟨offset, hambiguous⟩
  · exact .inl hok
  · exact .inr hnone
  · exact absurd hambiguous (Grammar.parse_ne_ambiguous grammar_descends.acyclic
      (layers_separates.derivations_subsingleton _ tokens) root offset)

end Logic

theorem Phrase.Fits.exists_program {tokens : List (Token LogicTag)} {root : RootKind}
    {v : Phrase} (h : v.Fits tokens (Category.ofRoot root).sort) :
    ∃ program, Program.ofPhrase? root v = some program ∧ program.root = root ∧
      program.Sorted tokens := by
  cases root with
  | predicate =>
    cases h with
    | condition h => exact ⟨_, rfl, rfl, .predicate h⟩
  | expression =>
    cases h with
    | amount h => exact ⟨_, rfl, rfl, .expression h⟩
  | actions =>
    cases h with
    | commands filled each => exact ⟨_, rfl, rfl, .actions filled each⟩

namespace Dialect

theorem ofRoot_mem (root : RootKind) : Category.ofRoot root ∈ Logic.grammar.roots := by
  cases root <;> decide

/-- Compiling fails in the scanner, for too many tokens or for want of a derivation; or it gives
a program of the right sort. -/
theorem standard_cases {maxSteps maxTokens : Nat} {source : String} {root : RootKind}
    {result : Except (CompileError Category) Snippet}
    (h : (standard maxSteps maxTokens).compile source root = result) :
    (∃ e, result = .error (.lex e)) ∨
      (∃ offset, result = .error (.parse (.tooLong offset maxTokens))) ∨
      (∃ offset found, result = .error (.parse (.noParse offset found))) ∨
      ∃ tokens program, (Lexicon.table maxSteps).scan false source = .ok tokens ∧
        result = .ok ⟨source, root, program⟩ ∧ program.root = root ∧ program.Sorted tokens := by
  unfold compile at h
  split at h
  · exact .inl ⟨_, h.symm⟩
  · rename_i tokens hscan
    split at h
    · exact .inr (.inl ⟨_, h.symm⟩)
    · rcases Logic.parse_sorted (fun t ht => Lexicon.apt_of_scan hscan ht)
        (ofRoot_mem root) with
        ⟨v, hparse, hfits⟩ | ⟨offset, found, hparse⟩
      · obtain ⟨program, hprogram, hroot, hsorted⟩ := hfits.exists_program
        refine .inr (.inr (.inr ⟨tokens, program, hscan, ?_, hroot, hsorted⟩))
        simpa [standard, hparse, hprogram] using h.symm
      · refine .inr (.inr (.inl ⟨offset, found, ?_⟩))
        simpa [standard, hparse] using h.symm

/-- No action ever refuses its children and every root is known; a program has the source and
the root that it was compiled from, and is of the sort that the root calls for. -/
theorem standard_sorted (maxSteps maxTokens : Nat) (source : String) (root : RootKind) :
    (∀ name message,
      (standard maxSteps maxTokens).compile source root ≠
        .error (.parse (.action name message))) ∧
      (∀ name, (standard maxSteps maxTokens).compile source root ≠
        .error (.parse (.unknownRoot name))) ∧
      ∀ snippet, (standard maxSteps maxTokens).compile source root = .ok snippet →
        snippet.source = source ∧ snippet.root = root ∧ snippet.program.root = root ∧
          ∃ tokens, (Lexicon.table maxSteps).scan false source = .ok tokens ∧
            snippet.program.Sorted tokens := by
  generalize h : (standard maxSteps maxTokens).compile source root = result
  rcases standard_cases h with
    ⟨e, rfl⟩ | ⟨offset, rfl⟩ | ⟨offset, found, rfl⟩ | ⟨tokens, program, hscan, rfl,
      hroot, hsorted⟩
  · simp
  · simp
  · simp
  · refine ⟨by simp, by simp, ?_⟩
    intro snippet hs
    cases hs
    exact ⟨rfl, rfl, hroot, tokens, hscan, hsorted⟩

/-- A command whose value is the opposite of a call with a visit. -/
theorem sample_sorted : ∃ snippet,
    (standard 32 32).compile "gold = -price(@inn)" .actions = .ok snippet ∧
      snippet.source = "gold = -price(@inn)" ∧ snippet.root = .actions ∧
      snippet.program.root = .actions ∧
      ∃ tokens, (Lexicon.table 32).scan false "gold = -price(@inn)" = .ok tokens ∧
        snippet.program.Sorted tokens := by
  have hok : ((standard 32 32).compile "gold = -price(@inn)" .actions).isOk = true := by
    decide +kernel
  cases hcompile : (standard 32 32).compile "gold = -price(@inn)" .actions with
  | error e =>
    rw [hcompile] at hok
    cases hok
  | ok snippet => exact ⟨snippet, rfl, (standard_sorted 32 32 _ .actions).2.2 snippet hcompile⟩

end Dialect

end Fabula
