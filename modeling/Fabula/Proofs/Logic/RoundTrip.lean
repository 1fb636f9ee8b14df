import Fabula.Proofs.Logic.Reading

namespace Fabula

namespace Phrase

theorem sceneOf_at_sceneOf (reference : String) :
    sceneOf ("@" ++ sceneOf reference) = sceneOf reference := by
  simp [sceneOf, List.dropWhile_idempotent]

theorem opposite_eq_negate {e : Expr} (h : ∀ n, e ≠ .number n) : opposite e = .negate e := by
  cases e with
  | number n => exact absurd rfl (h n)
  | _ => rfl

end Phrase

namespace BinaryOp

variable {op : BinaryOp}

theorem four_le_strength (h : op ∈ [add, sub, mul, div, mod]) : 4 ≤ op.strength := by
  revert h
  cases op <;> decide

theorem strength_eq_three (h : op ∈ [eq, notEq, lt, le, gt, ge]) : op.strength = 3 := by
  revert h
  cases op <;> decide

theorem strength_lt_two (h : op ∈ [and, or]) : op.strength < 2 := by
  revert h
  cases op <;> decide

theorem strength_le (op : BinaryOp) : op.strength ≤ 5 := by
  cases op <;> decide

end BinaryOp

namespace Expr

open Logic

variable {spell : Float → Numeral} {e : Expr} {least : Nat}

theorem printEach_eq_map (es : List Expr) : printEach spell es = es.map (print spell) := by
  induction es with
  | nil => rfl
  | cons e es ih => rw [printEach, ih, List.map_cons]

theorem strength_le (e : Expr) : e.strength spell ≤ 7 := by
  cases e with
  | number n =>
    rw [strength]
    split <;> omega
  | binary op lhs rhs => exact op.strength_le.trans (by omega)
  | _ => simp [strength]

theorem enclose_of_le {strength : Nat} {lexemes : List Lexeme} (h : least ≤ strength) :
    enclose least strength lexemes = lexemes :=
  if_neg (Nat.not_lt.mpr h)

namespace Amount

theorem four_le_strength (h : e.Arithmetic spell) : 4 ≤ e.strength spell := by
  cases h with
  | number denotes =>
    rw [strength]
    split <;> omega
  | binary operator left right => exact BinaryOp.four_le_strength operator
  | _ => simp [strength]

theorem reads_enclosed (h : e.Arithmetic spell)
    (hr : Reads (layer (e.strength spell)) (e.print spell) (.expr e)) (hl : least ≤ 7) :
    Reads (layer least) (enclose least (e.strength spell) (e.print spell)) (.expr e) := by
  unfold enclose
  split
  · -- Between parentheses stands a sum, and the whole is an atom.
    have hsum : Reads .sum (e.print spell) (.expr e) :=
      hr.weaken (strength_le e) h.four_le_strength
    have hatom : Reads (layer 7) _ _ := hsum.parenthesized (by simp [productions, layer])
    exact hatom.weaken (Nat.le_refl 7) hl
  · exact hr.weaken (strength_le e) (by omega)

theorem reads (h : e.Arithmetic spell) :
    Reads (layer (e.strength spell)) (e.print spell) (.expr e) := by
  induction h with
  | number denotes =>
    rw [print]
    exact .numeral denotes
  | quality named =>
    have produced : ⟨.atom, [tok .identifier], Phrase.quality⟩ ∈ productions := by
      simp [productions]
    rw [print]
    apply Reads.word produced
    intro t ht
    rw [← ht]
    rfl
  | visits named =>
    obtain ⟨reference, rfl⟩ := named
    have produced : ⟨.atom, [tok .visit], Phrase.visits⟩ ∈ productions := by simp [productions]
    rw [print]
    apply Reads.word produced
    intro t ht
    have hscene : Phrase.sceneOf t.text = Phrase.sceneOf reference := by
      rw [ht, Phrase.sceneOf_at_sceneOf]
    rw [← hscene]
    rfl
  | @call name args named each ih =>
    rw [print, printEach_eq_map]
    cases args with
    | nil => exact .call_nil name
    | cons first rest =>
      apply Reads.call
      apply Reads.separated .firstArgument .nextArgument
      intro e he
      exact (ih e he).weaken (strength_le e) (each e he).four_le_strength
  | @negate e inner compound ih =>
    have hsigned : Reads (layer 6) _ _ := inner.reads_enclosed ih (by omega)
    have hminus := hsigned.minus
    rw [Phrase.opposite_eq_negate compound] at hminus
    rw [print]
    exact hminus
  | @binary op lhs rhs operator left right ihl ihr =>
    have hop := BinaryOp.four_le_strength operator
    have hle := op.strength_le
    rw [print]
    exact .between (operator_produced (by omega)) (fun _ => rfl)
      (left.reads_enclosed ihl (by omega))
      (right.reads_enclosed ihr (by omega))

theorem reads_sum (h : e.Arithmetic spell) : Reads .sum (e.print spell) (.expr e) :=
  h.reads.weaken (strength_le e) h.four_le_strength

end Amount

namespace Condition

theorem reads_enclosed
    (hr : Reads (layer (min 3 (e.strength spell))) (e.print spell) (.expr e))
    (hs : e.strength spell < 2 → Reads .strict (e.print spell) (.expr e)) (hl : least ≤ 2) :
    Reads (layer least) (enclose least (e.strength spell) (e.print spell)) (.expr e) := by
  unfold enclose
  split
  · -- Only a disjunction or conjunction is too weak for its place here.
    have hstrict := hs (by omega)
    have hcondition : Reads (layer 3) _ _ :=
      hstrict.parenthesized (by simp [productions, layer])
    exact hcondition.weaken (by omega) (by omega)
  · exact hr.weaken (by omega) (by omega)

theorem reads_comparison {op : BinaryOp} {lhs rhs : Expr} (h : op.strength = 3)
    (left : lhs.Arithmetic spell) (right : rhs.Arithmetic spell) :
    Reads .condition ((binary op lhs rhs).print spell) (.expr (.binary op lhs rhs)) := by
  have hl := left.four_le_strength
  have hr := right.four_le_strength
  have hcomparison :=
    Reads.between (comparison_produced h) (fun _ => rfl) left.reads_sum right.reads_sum
  -- Sums are stronger than any comparison, so neither side is enclosed.
  rw [print, enclose_of_le (by omega), enclose_of_le (by omega)]
  exact hcomparison.pass (by simp [productions])

/-- A condition is read by the category of its strength, or that of conditions where it is
stronger, and as a strict one where it can need parentheses. -/
theorem reads (h : e.Boolean spell) :
    Reads (layer (min 3 (e.strength spell))) (e.print spell) (.expr e) ∧
      (e.strength spell < 2 → Reads .strict (e.print spell) (.expr e)) := by
  induction h with
  | @amount e value =>
    have hfour := value.four_le_strength
    exact ⟨value.reads.weaken (strength_le e) (by omega), fun h => by omega⟩
  | @bool b =>
    refine ⟨?_, fun h => by simp [strength] at h⟩
    cases b with
    | false => exact .sign (by simp [productions, layer, strength])
    | true => exact .sign (by simp [productions, layer, strength])
  | @comparison op lhs rhs operator left right =>
    have hop := BinaryOp.strength_eq_three operator
    rw [strength, hop]
    exact ⟨reads_comparison hop left right, fun h => by omega⟩
  | @not e inner ih =>
    refine ⟨?_, fun h => by simp [strength] at h⟩
    have produced : ⟨.negation, [tok .not, cat .negation], Phrase.not⟩ ∈ productions := by
      simp [productions]
    have hnegation : Reads (layer 2) _ _ := reads_enclosed ih.1 ih.2 (by omega)
    rw [print]
    exact .unary produced (fun _ => rfl) hnegation
  | @connective op lhs rhs operator left right ihl ihr =>
    have hop := BinaryOp.strength_lt_two operator
    have hl : Reads (layer op.strength) _ _ := reads_enclosed ihl.1 ihl.2 (by omega)
    have hr : Reads (layer (op.strength + 1)) _ _ := reads_enclosed ihr.1 ihr.2 (by omega)
    rw [strength, print, min_eq_right (by omega)]
    refine ⟨.between (operator_produced (by omega)) (fun _ => rfl) hl hr, fun _ => ?_⟩
    exact .between (strict_produced hop) (fun _ => rfl) hl hr

end Condition

end Expr

namespace Command

open Logic

variable {spell : Float → Numeral}

theorem reads {c : Command} (h : c.value.Arithmetic spell) :
    Reads .command (c.print spell) (.command c) := by
  apply Reads.of_rhs (command_produced c.op)
  intro tokens hs
  obtain ⟨t, after, rfl, ⟨ht, htext⟩, hs⟩ := hs.uncons
  obtain ⟨t', after, rfl, ht', hs⟩ := hs.uncons
  refine ⟨_, .token ht (.token ht' (h.reads_sum after hs)), ?_⟩
  have hcommand : c = ⟨t.text, c.op, c.value⟩ := by rw [htext]
  rw [hcommand]
  rfl

theorem reads_all {cs : List Command} (hne : cs ≠ []) (h : ∀ c ∈ cs, c.value.Arithmetic spell) :
    Reads .commands (printAll spell cs) (.commands cs) := by
  obtain ⟨first, rest, rfl⟩ := List.exists_cons_of_ne_nil hne
  exact .separated .firstCommand .nextCommand first rest fun c hc => reads (h c hc)

end Command

namespace Logic

/-- Parsing undoes printing, however numbers are spelled: tokens for the print of a condition,
of arithmetic, or of commands with or without a last semicolon are parsed as what was
printed. -/
theorem parse_print (spell : Float → Numeral) (tokens : List (Token LogicTag)) :
    (∀ e : Expr, e.Boolean spell → Shows tokens (e.print spell) →
        grammar.parse .predicate tokens = .ok (.expr e)) ∧
      (∀ e : Expr, e.Arithmetic spell → Shows tokens (e.print spell) →
        grammar.parse .expression tokens = .ok (.expr e)) ∧
      ∀ cs : List Command, cs ≠ [] → (∀ c ∈ cs, c.value.Arithmetic spell) →
        (Shows tokens (Command.printAll spell cs) ∨
          Shows tokens (Command.printAll spell cs ++ [.sign .semicolon])) →
        grammar.parse .actions tokens = .ok (.commands cs) := by
  refine ⟨?_, ?_, ?_⟩
  · intro e he hs
    have hdisjunction : Reads (layer 0) _ _ := he.reads.1.weaken (by omega) (by omega)
    have hpredicate : Reads .predicate _ _ := hdisjunction.pass (by simp [productions, layer])
    exact hpredicate.parse (by decide) hs
  · intro e he hs
    have hexpression : Reads .expression _ _ := he.reads_sum.pass (by simp [productions])
    exact hexpression.parse (by decide) hs
  · intro cs hne hcs hs
    have hcommands := Command.reads_all hne hcs
    rcases hs with hs | hs
    · have hactions : Reads .actions _ _ := hcommands.pass (by simp [productions])
      exact hactions.parse (by decide) hs
    · have produced :
          ⟨.actions, [cat .commands, tok .semicolon], Phrase.pass⟩ ∈ productions := by
        simp [productions]
      exact (hcommands.followed produced).parse (by decide) hs

def spellTwo (n : Float) : Numeral := ⟨decide (n < 0), "2"⟩

theorem spellTwo_denotes : (spellTwo 2).Denotes 2 ∧ (spellTwo (-2)).Denotes (-2) :=
  ⟨⟨2, by decide +kernel⟩, ⟨2, by decide +kernel⟩⟩

def difference : Expr := .binary .sub (.quality "y") (.binary .sub (.quality "y") (.number 2))

theorem difference_arithmetic : difference.Arithmetic spellTwo :=
  .binary (by decide) (.quality trivial)
    (.binary (by decide) (.quality trivial) (.number spellTwo_denotes.1))

/-- The condition `not (x or @cellar) and -2 < f(y - (y - 2))`. -/
def guarded : Expr :=
  .binary .and (.not (.binary .or (.quality "x") (.visits "cellar")))
    (.binary .lt (.number (-2)) (.call "f" [difference]))

theorem guarded_boolean : guarded.Boolean spellTwo := by
  have hcall : (Expr.call "f" [difference]).Arithmetic spellTwo :=
    .call trivial (by simpa using difference_arithmetic)
  refine .connective (by decide) (.not (.connective (by decide) ?_ ?_)) ?_
  · exact .amount (.quality trivial)
  · exact .amount (.visits ⟨"@cellar", by decide⟩)
  · exact .comparison (by decide) (.number spellTwo_denotes.2) hcall

/-- Tokens without regard to their places. -/
def tokensOf (words : List (LogicTag × String)) : List (Token LogicTag) :=
  words.map fun word => ⟨some word.1, 0, word.2⟩

/-- The round trip of a condition with both kinds of parentheses, and of commands that end with
a semicolon. -/
theorem parse_print_nested :
    grammar.parse .predicate (tokensOf
        [(.not, "not"), (.openParen, "("), (.identifier, "x"), (.or, "or"), (.visit, "@cellar"),
          (.closeParen, ")"), (.and, "and"), (.minus, "-"), (.number, "2"), (.less, "<"),
          (.identifier, "f"), (.openParen, "("), (.identifier, "y"), (.minus, "-"),
          (.openParen, "("), (.identifier, "y"), (.minus, "-"), (.number, "2"),
          (.closeParen, ")"), (.closeParen, ")")]) =
        .ok (.expr guarded) ∧
      grammar.parse .actions (tokensOf
        [(.identifier, "x"), (.plusEquals, "+="), (.identifier, "y"), (.minus, "-"),
          (.openParen, "("), (.identifier, "y"), (.minus, "-"), (.number, "2"),
          (.closeParen, ")"), (.semicolon, ";"), (.identifier, "y"), (.equals, "="),
          (.minus, "-"), (.number, "2"), (.semicolon, ";")]) =
        .ok (.commands [⟨"x", .add, difference⟩, ⟨"y", .set, .number (-2)⟩]) := by
  constructor
  · exact (parse_print spellTwo _).1 guarded guarded_boolean (by decide +kernel)
  · refine (parse_print spellTwo _).2.2 _ (by simp) ?_ (.inr (by decide +kernel))
    simpa using ⟨difference_arithmetic, .number spellTwo_denotes.2⟩

end Logic

end Fabula
