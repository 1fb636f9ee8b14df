import Mathlib
import Fabula.Proofs.Grammar.Reading
import Fabula.Proofs.Logic.Printing
import Fabula.Proofs.Logic.Unambiguous

namespace Fabula

/-- The tokens are ones for the lexemes, in order. -/
abbrev Shows : List (Token LogicTag) → List Lexeme → Prop := List.Forall₂ Token.Shows

namespace Shows

variable {tokens : List (Token LogicTag)} {lexeme : Lexeme} {front rest : List Lexeme}

theorem split (h : Shows tokens (front ++ rest)) :
    ∃ before after, tokens = before ++ after ∧ Shows before front ∧ Shows after rest :=
  ⟨_, _, (List.take_append_drop front.length tokens).symm, List.forall₂_take_append _ _ _ h,
    List.forall₂_drop_append _ _ _ h⟩

theorem uncons (h : Shows tokens (lexeme :: rest)) :
    ∃ token after, tokens = token :: after ∧ token.Shows lexeme ∧ Shows after rest := by
  cases h with
  | cons first later => exact ⟨_, _, rfl, first, later⟩

theorem nil (h : Shows tokens []) : tokens = [] := by
  cases h
  rfl

end Shows

namespace Logic

abbrev Gives (c : Category) (tokens : List (Token LogicTag)) (phrase : Phrase) : Prop :=
  grammar.Builds [cat c] tokens [.value phrase]

theorem Gives.of_rhs {c : Category} {rhs : List (Symbol Category LogicTag)}
    {action : Phrase.Children → Except String Phrase} {tokens : List (Token LogicTag)}
    {given : Phrase.Children} {phrase : Phrase} (produced : ⟨c, rhs, action⟩ ∈ productions)
    (h : grammar.Builds rhs tokens given) (ha : action given = .ok phrase) :
    Gives c tokens phrase :=
  .rule (q := ⟨c, rhs, action⟩) (List.mem_toArray.mpr produced) h ha

/-- The category reads any tokens for the lexemes as the phrase. -/
def Reads (c : Category) (lexemes : List Lexeme) (phrase : Phrase) : Prop :=
  ∀ tokens, Shows tokens lexemes → grammar.Builds [cat c] tokens [.value phrase]

theorem Reads.parse {root : Category} {lexemes : List Lexeme} {phrase : Phrase}
    {tokens : List (Token LogicTag)} (h : Reads root lexemes phrase) (hr : root ∈ grammar.roots)
    (hs : Shows tokens lexemes) : grammar.parse root tokens = .ok phrase :=
  Grammar.parse_eq_of_builds grammar_descends.acyclic
    (layers_separates.derivations_subsingleton root tokens) hr (h tokens hs)

namespace Reads

variable {c d d' : Category} {xs ys : List Lexeme} {phrase : Phrase} {a b : Expr}
  {tag : LogicTag}

theorem of_rhs {rhs : List (Symbol Category LogicTag)}
    {action : Phrase.Children → Except String Phrase}
    (produced : ⟨c, rhs, action⟩ ∈ productions)
    (h : ∀ tokens, Shows tokens xs →
      ∃ given, grammar.Builds rhs tokens given ∧ action given = .ok phrase) :
    Reads c xs phrase := by
  intro tokens hs
  obtain ⟨given, inner, value⟩ := h tokens hs
  exact Gives.of_rhs produced inner value

theorem single {action : Phrase.Children → Except String Phrase} {inner : Phrase}
    (produced : ⟨c, [cat d], action⟩ ∈ productions) (h : action [.value inner] = .ok phrase)
    (hi : Reads d xs inner) : Reads c xs phrase := by
  apply of_rhs produced
  intro tokens hs
  exact ⟨_, hi tokens hs, h⟩

theorem pass (produced : ⟨c, [cat d], Phrase.pass⟩ ∈ productions) (h : Reads d xs phrase) :
    Reads c xs phrase :=
  single produced rfl h

theorem sign {b : Bool} (produced : ⟨c, [tok tag], Phrase.truth b⟩ ∈ productions) :
    Reads c [.sign tag] (.expr (.bool b)) := by
  apply of_rhs produced
  intro tokens hs
  obtain ⟨t, rest, rfl, ht, hs⟩ := hs.uncons
  obtain rfl := hs.nil
  exact ⟨_, .token ht .nil, rfl⟩

theorem word {text : String} {action : Phrase.Children → Except String Phrase}
    (produced : ⟨c, [tok tag], action⟩ ∈ productions)
    (h : ∀ t : Token LogicTag, t.text = text → action [.token t] = .ok phrase) :
    Reads c [.word tag text] phrase := by
  apply of_rhs produced
  intro tokens hs
  obtain ⟨t, rest, rfl, ⟨ht, text⟩, hs⟩ := hs.uncons
  obtain rfl := hs.nil
  exact ⟨_, .token ht .nil, h t text⟩

theorem unary {action : Phrase.Children → Except String Phrase}
    (produced : ⟨c, [tok tag, cat d], action⟩ ∈ productions)
    (h : ∀ t, action [.token t, .value (.expr a)] = .ok phrase) (ha : Reads d xs (.expr a)) :
    Reads c (.sign tag :: xs) phrase := by
  apply of_rhs produced
  intro tokens hs
  obtain ⟨t, rest, rfl, ht, hs⟩ := hs.uncons
  exact ⟨_, .token ht (ha rest hs), h t⟩

theorem between {action : Phrase.Children → Except String Phrase} {left right : Phrase}
    (produced : ⟨c, [cat d, tok tag, cat d'], action⟩ ∈ productions)
    (h : ∀ t, action [.value left, .token t, .value right] = .ok phrase)
    (hl : Reads d xs left) (hr : Reads d' ys right) :
    Reads c (xs ++ .sign tag :: ys) phrase := by
  apply of_rhs produced
  intro tokens hs
  obtain ⟨before, after, rfl, hbefore, hs⟩ := hs.split
  obtain ⟨t, rest, rfl, ht, hs⟩ := hs.uncons
  exact ⟨_, (hl before hbefore).cons (.token ht (hr rest hs)), h t⟩

theorem followed (produced : ⟨c, [cat d, tok tag], Phrase.pass⟩ ∈ productions)
    (h : Reads d xs phrase) : Reads c (xs ++ [.sign tag]) phrase := by
  apply of_rhs produced
  intro tokens hs
  obtain ⟨before, after, rfl, hbefore, hs⟩ := hs.split
  obtain ⟨t, after, rfl, ht, hs⟩ := hs.uncons
  obtain rfl := hs.nil
  exact ⟨_, (h before hbefore).cons (.token ht .nil), rfl⟩

theorem parenthesized
    (produced : ⟨c, [tok .openParen, cat d, tok .closeParen], Phrase.parenthesized⟩ ∈
      productions)
    (h : Reads d xs (.expr a)) :
    Reads c (.sign .openParen :: (xs ++ [.sign .closeParen])) (.expr a) := by
  apply of_rhs produced
  intro tokens hs
  obtain ⟨t, rest, rfl, ht, hs⟩ := hs.uncons
  obtain ⟨inner, after, rfl, hinner, hs⟩ := hs.split
  obtain ⟨t', rest, rfl, ht', hs⟩ := hs.uncons
  obtain rfl := hs.nil
  exact ⟨_, .token ht ((h inner hinner).cons (.token ht' .nil)), rfl⟩

/-- A category of lists reads items with signs between them, if it reads one item and takes one
more after a sign. -/
theorem separated {α : Type} {print : α → List Lexeme} {item : α → Phrase}
    {items : List α → Phrase} (single : ∀ {xs x}, Reads d xs (item x) → Reads c xs (items [x]))
    (more : ∀ {xs ys before x}, Reads c xs (items before) → Reads d ys (item x) →
      Reads c (xs ++ .sign tag :: ys) (items (before ++ [x])))
    (first : α) (rest : List α) (h : ∀ x ∈ first :: rest, Reads d (print x) (item x)) :
    Reads c (Lexeme.separated tag ((first :: rest).map print)) (items (first :: rest)) := by
  -- The grammar adds at the end, so what is read so far is carried along.
  have carry : ∀ xs before, Reads c xs (items before) →
      Reads c (xs ++ (rest.map print).flatMap (.sign tag :: ·)) (items (before ++ rest)) := by
    induction rest with
    | nil => simp
    | cons x rest ih =>
      intro xs before hb
      have hx := more hb (h x (by simp))
      have := ih (fun y hy => h y (by grind)) _ _ hx
      simpa using this
  exact carry _ [first] (single (h first (by simp)))

end Reads

def layer : Nat → Category
  | 0 => .disjunction
  | 1 => .conjunction
  | 2 => .negation
  | 3 => .condition
  | 4 => .sum
  | 5 => .product
  | 6 => .signed
  | _ => .atom

theorem layer_produced {n : Nat} (h : n < 7) :
    ⟨layer n, [cat (layer (n + 1))], Phrase.pass⟩ ∈ productions := by
  interval_cases n <;> simp [productions, layer]

theorem operator_produced {op : BinaryOp} (h : op.strength ≠ 3) :
    ⟨layer op.strength, [cat (layer op.strength), tok op.tag, cat (layer (op.strength + 1))],
      Phrase.binary op⟩ ∈ productions := by
  cases op <;> simp_all [productions, layer, BinaryOp.strength, BinaryOp.tag]

theorem comparison_produced {op : BinaryOp} (h : op.strength = 3) :
    ⟨.comparison, [cat .sum, tok op.tag, cat .sum], Phrase.binary op⟩ ∈ productions := by
  cases op <;> simp_all [productions, BinaryOp.strength, BinaryOp.tag]

theorem strict_produced {op : BinaryOp} (h : op.strength < 2) :
    ⟨.strict, [cat (layer op.strength), tok op.tag, cat (layer (op.strength + 1))],
      Phrase.binary op⟩ ∈ productions := by
  cases op <;> simp_all [productions, layer, BinaryOp.strength, BinaryOp.tag]

theorem command_produced (op : AssignOp) :
    ⟨.command, [tok .identifier, tok op.tag, cat .sum], Phrase.assign op⟩ ∈ productions := by
  cases op <;> simp [productions, AssignOp.tag]

/-- A phrase of some strength is one of any less. -/
theorem Gives.weaken {m n : Nat} {tokens : List (Token LogicTag)} {phrase : Phrase} (hn : n ≤ 7)
    (hm : m ≤ n) (h : Gives (layer n) tokens phrase) : Gives (layer m) tokens phrase := by
  induction n, hm using Nat.le_induction with
  | base => exact h
  | succ n hm ih => exact ih (by omega) (of_rhs (layer_produced (by omega)) h rfl)

namespace Reads

theorem weaken {m n : Nat} {xs : List Lexeme} {phrase : Phrase} (hn : n ≤ 7) (hm : m ≤ n)
    (h : Reads (layer n) xs phrase) : Reads (layer m) xs phrase :=
  fun tokens hs => Gives.weaken hn hm (h tokens hs)

theorem call_nil (name : String) :
    Reads .atom [.word .identifier name, .sign .openParen, .sign .closeParen]
      (.expr (.call name [])) := by
  have produced : ⟨.atom, [tok .identifier, tok .openParen, tok .closeParen], Phrase.call⟩ ∈
      productions := by
    simp [productions]
  apply of_rhs produced
  intro tokens hs
  obtain ⟨t, after, rfl, ⟨ht, htext⟩, hs⟩ := hs.uncons
  obtain ⟨t', after, rfl, ht', hs⟩ := hs.uncons
  obtain ⟨t'', after, rfl, ht'', hs⟩ := hs.uncons
  obtain rfl := hs.nil
  subst htext
  exact ⟨_, .token ht (.token ht' (.token ht'' .nil)), rfl⟩

theorem call {name : String} {args : List Expr} {xs : List Lexeme}
    (h : Reads .arguments xs (.arguments args)) :
    Reads .atom (.word .identifier name :: .sign .openParen :: (xs ++ [.sign .closeParen]))
      (.expr (.call name args)) := by
  have produced : ⟨.atom, [tok .identifier, tok .openParen, cat .arguments, tok .closeParen],
      Phrase.call⟩ ∈ productions := by
    simp [productions]
  apply of_rhs produced
  intro tokens hs
  obtain ⟨t, after, rfl, ⟨ht, htext⟩, hs⟩ := hs.uncons
  obtain ⟨t', after, rfl, ht', hs⟩ := hs.uncons
  obtain ⟨inner, after, rfl, hinner, hs⟩ := hs.split
  obtain ⟨t'', after, rfl, ht'', hs⟩ := hs.uncons
  obtain rfl := hs.nil
  subst htext
  exact ⟨_, .token ht (.token ht' ((h inner hinner).cons (.token ht'' .nil))), rfl⟩

theorem firstArgument {xs : List Lexeme} {e : Expr} (h : Reads .sum xs (.expr e)) :
    Reads .arguments xs (.arguments [e]) := by
  have produced : ⟨.arguments, [cat .sum], Phrase.firstArgument⟩ ∈ productions := by
    simp [productions]
  exact single produced rfl h

theorem nextArgument {xs ys : List Lexeme} {es : List Expr} {e : Expr}
    (hes : Reads .arguments xs (.arguments es)) (he : Reads .sum ys (.expr e)) :
    Reads .arguments (xs ++ .sign .comma :: ys) (.arguments (es ++ [e])) := by
  have produced : ⟨.arguments, [cat .arguments, tok .comma, cat .sum], Phrase.nextArgument⟩ ∈
      productions := by
    simp [productions]
  exact between produced (fun _ => rfl) hes he

theorem firstCommand {xs : List Lexeme} {c : Command} (h : Reads .command xs (.command c)) :
    Reads .commands xs (.commands [c]) := by
  have produced : ⟨.commands, [cat .command], Phrase.firstCommand⟩ ∈ productions := by
    simp [productions]
  exact single produced rfl h

theorem nextCommand {xs ys : List Lexeme} {cs : List Command} {c : Command}
    (hcs : Reads .commands xs (.commands cs)) (hc : Reads .command ys (.command c)) :
    Reads .commands (xs ++ .sign .semicolon :: ys) (.commands (cs ++ [c])) := by
  have produced :
      ⟨.commands, [cat .commands, tok .semicolon, cat .command], Phrase.nextCommand⟩ ∈
      productions := by
    simp [productions]
  exact between produced (fun _ => rfl) hcs hc

theorem minus {xs : List Lexeme} {e : Expr} (h : Reads .signed xs (.expr e)) :
    Reads .signed (.sign .minus :: xs) (.expr (Phrase.opposite e)) := by
  have produced : ⟨.signed, [tok .minus, cat .signed], Phrase.negate⟩ ∈ productions := by
    simp [productions]
  exact unary produced (fun _ => rfl) h

theorem literal {literal : String} {n : Float} (h : Number.read? literal = some n) :
    Reads .atom [.word .number literal] (.expr (.number n)) := by
  have produced : ⟨.atom, [tok .number], Phrase.number⟩ ∈ productions := by
    simp [productions]
  apply word produced
  intro t ht
  exact Phrase.number_of_read (ht ▸ h)

theorem numeral {numeral : Numeral} {n : Float} (h : numeral.Denotes n) :
    Reads (layer (if numeral.negative then 6 else 7)) numeral.print (.expr (.number n)) := by
  obtain ⟨size, hsize, rfl⟩ := h
  unfold Numeral.print
  cases numeral.negative with
  | false => exact literal hsize
  | true =>
    have hsigned : Reads (layer 6) _ _ := weaken (n := 7) (by omega) (by omega) (literal hsize)
    exact hsigned.minus

end Reads

end Logic

end Fabula
