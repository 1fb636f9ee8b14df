import Fabula.Proofs.Logic.Reading

namespace Fabula

def occurrences (tag : LogicTag) (tokens : List (Token LogicTag)) : Nat :=
  tokens.countP (·.tag == some tag)

/-- No parenthesis that stands before the tokens is closed among them. -/
def Enclosed (tokens : List (Token LogicTag)) : Prop :=
  ∀ front ∈ tokens.inits, occurrences .closeParen front ≤ occurrences .openParen front

instance (tokens : List (Token LogicTag)) : Decidable (Enclosed tokens) :=
  inferInstanceAs
    (Decidable (∀ front ∈ tokens.inits,
      occurrences .closeParen front ≤ occurrences .openParen front))

namespace Logic

variable {c d : Category} {tokens : List (Token LogicTag)} {v : Phrase} {e : Expr}
  {opening closing : Token LogicTag} {q : Production Category LogicTag Phrase}

theorem parse_eq_ok_iff_gives {root : Category} (hr : root ∈ grammar.roots) :
    grammar.parse root tokens = .ok v ↔ Gives root tokens v :=
  Grammar.parse_eq_ok_iff grammar_descends.acyclic
    (layers_separates.derivations_subsingleton root tokens) hr

section Productions

/-- A production of a condition passes on a stronger one, or is one of strict conditions too. -/
theorem strict_of_layer {n : Nat} (hn : n < 4) : ∀ q ∈ productions.filter (·.lhs = layer n),
    q.rhs = [cat (layer (n + 1))] ∧ q.action = Phrase.pass ∨
      ⟨.strict, q.rhs, q.action⟩ ∈ productions := by
  interval_cases n <;> simp [productions, layer]

theorem layer_of_strict : ∀ q ∈ productions.filter (·.lhs = .strict),
    ∃ n ∈ [0, 1, 2, 3], ⟨layer n, q.rhs, q.action⟩ ∈ productions := by
  simp [productions, layer]

theorem parenthesized_of_openParen :
    ∀ q ∈ productions.filter (·.rhs.head? = some (tok .openParen)),
      (q.rhs = [tok .openParen, cat .strict, tok .closeParen] ∨
        q.rhs = [tok .openParen, cat .sum, tok .closeParen]) ∧
      q.action = Phrase.parenthesized := by
  simp [productions, cat, tok]

theorem action_of_single : ∀ q ∈ productions.filter (·.rhs.length = 1), ∀ d, q.rhs = [cat d] →
    q.action = Phrase.pass ∨ q.action = Phrase.firstCommand ∨
      q.action = Phrase.firstArgument := by
  simp [productions, cat, tok]

theorem rhs_ne_nil (q : Production Category LogicTag Phrase) (h : q ∈ grammar.productions) :
    q.rhs ≠ [] :=
  List.length_pos_iff.mp
    (Production.length_rhs_pos (grammar_descends q (Array.mem_toList_iff.mpr h)))

theorem rhs_balanced : ∀ q ∈ grammar.productions,
    q.rhs.count (tok .openParen) = q.rhs.count (tok .closeParen) := by
  decide +kernel

end Productions

namespace Gives

theorem exists_filtered (h : Gives c tokens v) : ∃ q ∈ productions.filter (·.lhs = c), ∃ given,
    grammar.Builds q.rhs tokens given ∧ q.action given = .ok v := by
  obtain ⟨q, hq, rfl, given, hb, ha⟩ := Grammar.Builds.exists_production h
  exact ⟨q, List.mem_filter.mpr ⟨List.mem_toArray.mp hq, by simp⟩, given, hb, ha⟩

theorem of_pass {given : Phrase.Children} (h : grammar.Builds [cat d] tokens given)
    (ha : Phrase.pass given = .ok v) : Gives d tokens v := by
  obtain ⟨v', rfl⟩ := h.exists_value
  cases ha
  exact h

theorem sum_or_strict {n : Nat} (hn : n ≤ 4) (h : Gives (layer n) tokens v) :
    Gives .sum tokens v ∨ Gives .strict tokens v := by
  induction hn using Nat.decreasingInduction with
  | self => exact .inl h
  | of_succ n hn ih =>
    obtain ⟨q, hq, given, hb, ha⟩ := h.exists_filtered
    rcases strict_of_layer hn q hq with ⟨hrhs, haction⟩ | hstrict
    · rw [hrhs] at hb
      rw [haction] at ha
      exact ih (of_pass hb ha)
    · exact .inr (of_rhs hstrict hb ha)

theorem of_strict (h : Gives .strict tokens v) : Gives .disjunction tokens v := by
  obtain ⟨q, hq, given, hb, ha⟩ := h.exists_filtered
  obtain ⟨n, hn, hlayer⟩ := layer_of_strict q hq
  have hle : n ≤ 7 := by
    simp at hn
    omega
  exact weaken (m := 0) hle (Nat.zero_le n) (of_rhs hlayer hb ha)

theorem disjunction_iff :
    Gives .disjunction tokens v ↔ Gives .sum tokens v ∨ Gives .strict tokens v := by
  constructor
  · exact sum_or_strict (n := 0) (by omega)
  · rintro (h | h)
    · exact weaken (m := 0) (n := 4) (by omega) (by omega) h
    · exact of_strict h

theorem iff_of_pass (hc : productions.filter (·.lhs = c) = [⟨c, [cat d], Phrase.pass⟩]) :
    Gives c tokens v ↔ Gives d tokens v := by
  constructor
  · intro h
    obtain ⟨q, hq, given, hb, ha⟩ := h.exists_filtered
    rw [hc, List.mem_singleton] at hq
    subst hq
    exact of_pass hb ha
  · intro h
    have hmem : ⟨c, [cat d], Phrase.pass⟩ ∈ productions.filter (·.lhs = c) := by simp [hc]
    exact of_rhs (List.mem_filter.mp hmem).1 h rfl

theorem predicate_iff : Gives .predicate tokens v ↔ Gives .disjunction tokens v :=
  iff_of_pass rfl

theorem expression_iff : Gives .expression tokens v ↔ Gives .sum tokens v :=
  iff_of_pass rfl

theorem parenthesized
    (produced : ⟨c, [tok .openParen, cat d, tok .closeParen], Phrase.parenthesized⟩ ∈
      productions)
    (ho : opening.tag = some .openParen) (hc : closing.tag = some .closeParen)
    (h : Gives d tokens (.expr e)) : Gives c (opening :: (tokens ++ [closing])) (.expr e) :=
  of_rhs produced (.token ho (h.cons (.token hc .nil))) rfl

theorem wrap_sum (ho : opening.tag = some .openParen) (hc : closing.tag = some .closeParen)
    (h : Gives .sum tokens (.expr e)) :
    Gives .sum (opening :: (tokens ++ [closing])) (.expr e) := by
  have hatom : Gives .atom (opening :: (tokens ++ [closing])) (.expr e) :=
    parenthesized (by simp [productions]) ho hc h
  exact weaken (m := 4) (n := 7) (by omega) (by omega) hatom

theorem wrap (ho : opening.tag = some .openParen) (hc : closing.tag = some .closeParen)
    (h : Gives .disjunction tokens (.expr e)) :
    Gives .disjunction (opening :: (tokens ++ [closing])) (.expr e) := by
  rcases disjunction_iff.mp h with hsum | hstrict
  · exact disjunction_iff.mpr (.inl (wrap_sum ho hc hsum))
  · exact disjunction_iff.mpr (.inr (parenthesized (by simp [productions]) ho hc hstrict))

end Gives

theorem occurrences_append (tag : LogicTag) (front rest : List (Token LogicTag)) :
    occurrences tag (front ++ rest) = occurrences tag front + occurrences tag rest :=
  List.countP_append

theorem occurrences_cons {t : Token LogicTag} {tag : LogicTag} (h : t.tag = some tag)
    (other : LogicTag) :
    occurrences other (t :: tokens) =
      occurrences other tokens + if tag = other then 1 else 0 := by
  simp [occurrences, List.countP_cons, h]

theorem occurrences_balanced {symbols : List (Symbol Category LogicTag)}
    {given : Phrase.Children} (h : grammar.Builds symbols tokens given) :
    occurrences .openParen tokens + symbols.count (tok .closeParen) =
      occurrences .closeParen tokens + symbols.count (tok .openParen) := by
  induction h with
  | nil => rfl
  | @token tag t symbols tokens given tagged rest ih =>
    have hcount (other : LogicTag) : (Symbol.terminal tag :: symbols).count (tok other) =
        symbols.count (tok other) + if tag = other then 1 else 0 := by
      simp [List.count_cons, tok]
    rw [occurrences_cons tagged, occurrences_cons tagged, hcount, hcount]
    omega
  | @phrase q symbols front tokens children given value produced inner action rest
      ihInner ihRest =>
    have hq := rhs_balanced q produced
    have hcount (other : LogicTag) : (Symbol.nonterminal q.lhs :: symbols).count (tok other) =
        symbols.count (tok other) := by
      simp [tok]
    rw [occurrences_append, occurrences_append, hcount, hcount]
    omega

/-- Tokens that begin with a parenthesis and are read by a category of their own close it. -/
theorem Gives.not_enclosed {front rest : List (Token LogicTag)} (h : Gives d front v)
    (ho : opening.tag = some .openParen)
    (hall : opening :: (tokens ++ [closing]) = front ++ rest) (hrest : rest ≠ []) :
    ¬ Enclosed tokens := by
  intro henclosed
  have hlength := Grammar.Builds.length_le rhs_ne_nil h
  have hbalanced := occurrences_balanced h
  cases front with
  | nil => cases hlength
  | cons first front =>
    rw [List.cons_append, List.cons.injEq] at hall
    obtain ⟨rfl, hall⟩ := hall
    have hfront : front ∈ tokens.inits := by
      obtain ⟨init, last, rfl⟩ := (List.eq_nil_or_concat rest).resolve_left hrest
      rw [List.concat_eq_append, ← List.append_assoc] at hall
      exact (List.mem_inits _ _).mpr ⟨init, (List.append_inj' hall rfl).1.symm⟩
    have hle := henclosed front hfront
    rw [occurrences_cons ho, occurrences_cons ho] at hbalanced
    simp [cat, tok] at hbalanced
    omega

theorem Gives.of_parenthesized {given : Phrase.Children}
    (h : grammar.Builds [tok .openParen, cat d, tok .closeParen]
      (opening :: (tokens ++ [closing])) given)
    (ha : Phrase.parenthesized given = .ok (.expr e)) : Gives d tokens (.expr e) := by
  cases h with
  | token tagged h =>
    obtain ⟨front, rest, value, later, hall, rfl, hfront, hrest⟩ := h.split
    cases hrest with
    | token tagged hrest =>
      cases hrest
      obtain ⟨rfl, -⟩ := List.append_inj' hall rfl
      cases value with
      | expr e' =>
        cases ha
        exact hfront
      | _ => cases ha

theorem Gives.of_single {given : Phrase.Children} (hq : q ∈ productions)
    (hrhs : q.rhs = [cat d]) (h : grammar.Builds [cat d] tokens given)
    (ha : q.action given = .ok (.expr e)) : Gives d tokens (.expr e) := by
  have hfilter : q ∈ productions.filter (·.rhs.length = 1) :=
    List.mem_filter.mpr ⟨hq, by simp [hrhs]⟩
  obtain ⟨value, rfl⟩ := h.exists_value
  rcases action_of_single q hfilter d hrhs with haction | haction | haction
  · rw [haction] at ha
    cases ha
    exact h
  · rw [haction] at ha
    cases value <;> cases ha
  · rw [haction] at ha
    cases value <;> cases ha

theorem Gives.of_openParen {given : Phrase.Children} (hq : q ∈ productions)
    (hfirst : q.rhs.head? = some (tok .openParen))
    (h : grammar.Builds q.rhs (opening :: (tokens ++ [closing])) given)
    (ha : q.action given = .ok (.expr e)) : Gives .disjunction tokens (.expr e) := by
  obtain ⟨hshape, haction⟩ :=
    parenthesized_of_openParen q (List.mem_filter.mpr ⟨hq, by simpa using hfirst⟩)
  rw [haction] at ha
  rcases hshape with hshape | hshape
  · rw [hshape] at h
    exact disjunction_iff.mpr (.inr (of_parenthesized h ha))
  · rw [hshape] at h
    exact disjunction_iff.mpr (.inl (of_parenthesized h ha))

theorem Gives.unwrap (h : Gives c (opening :: (tokens ++ [closing])) (.expr e))
    (ho : opening.tag = some .openParen) (henclosed : Enclosed tokens) :
    Gives .disjunction tokens (.expr e) := by
  -- Categories that pass on another one are gone through from the top; the others fix the first
  -- token.
  induction hheight : height c using Nat.strong_induction_on generalizing c with
  | _ n ih =>
    obtain ⟨q, hq, rfl, given, hb, ha⟩ := Grammar.Builds.exists_production h
    have hmem := List.mem_toArray.mp hq
    cases hrhs : q.rhs with
    | nil => exact absurd hrhs (rhs_ne_nil q hq)
    | cons first more =>
      cases first with
      | terminal tag =>
        have htag : opening.tag = some tag := by
          rw [hrhs] at hb
          cases hb
          assumption
        cases ho.symm.trans htag
        exact of_openParen hmem (by rw [hrhs]; rfl) hb ha
      | nonterminal d =>
        rw [hrhs] at hb
        cases more with
        | nil =>
          have hlower : height d < height q.lhs := by
            simpa [Production.descends, hrhs] using grammar_descends q
              (Array.mem_toList_iff.mpr hq)
          exact ih (height d) (hheight ▸ hlower) (of_single hmem hrhs hb ha) rfl
        | cons second more =>
          obtain ⟨front, rest, value, later, hall, -, hfront, hrest⟩ := hb.split
          have hlength := hrest.length_le rhs_ne_nil
          have hne : rest ≠ [] := by
            rintro rfl
            cases hlength
          exact absurd henclosed (not_enclosed hfront ho hall hne)

/-- Parentheses and roots change nothing: an expression is the same as a predicate; a predicate
or an expression is the same in parentheses; and a predicate in parentheses that belong together
is the same without them. -/
theorem parentheses_transparent :
    (∀ tokens e, grammar.parse .expression tokens = .ok (.expr e) →
        grammar.parse .predicate tokens = .ok (.expr e)) ∧
      (∀ root ∈ [Category.predicate, .expression], ∀ opening closing tokens e,
        opening.tag = some .openParen → closing.tag = some .closeParen →
        grammar.parse root tokens = .ok (.expr e) →
          grammar.parse root (opening :: (tokens ++ [closing])) = .ok (.expr e)) ∧
      ∀ opening closing tokens e, opening.tag = some .openParen →
        closing.tag = some .closeParen →
        Enclosed tokens →
          grammar.parse .predicate (opening :: (tokens ++ [closing])) = .ok (.expr e) →
          grammar.parse .predicate tokens = .ok (.expr e) := by
  have hpredicate (tokens v) :
      grammar.parse .predicate tokens = .ok v ↔ Gives .disjunction tokens v :=
    (parse_eq_ok_iff_gives (by decide)).trans Gives.predicate_iff
  have hexpression (tokens v) :
      grammar.parse .expression tokens = .ok v ↔ Gives .sum tokens v :=
    (parse_eq_ok_iff_gives (by decide)).trans Gives.expression_iff
  refine ⟨?_, ?_, ?_⟩
  · intro tokens e h
    exact (hpredicate _ _).mpr (Gives.disjunction_iff.mpr (.inl ((hexpression _ _).mp h)))
  · intro root hroot opening closing tokens e ho hc h
    rcases List.mem_pair.mp hroot with rfl | rfl
    · exact (hpredicate _ _).mpr (.wrap ho hc ((hpredicate _ _).mp h))
    · exact (hexpression _ _).mpr (.wrap_sum ho hc ((hexpression _ _).mp h))
  · intro opening closing tokens e ho hc henclosed h
    exact (hpredicate _ _).mpr (((hpredicate _ _).mp h).unwrap ho henclosed)

/-- The tokens of `not gold`; the second is an expression by itself. -/
def notGold : List (Token LogicTag) := [⟨some .not, 1, "not"⟩, ⟨some .identifier, 5, "gold"⟩]

theorem notGold_wrapped :
    grammar.parse .predicate (notGold.drop 1) = .ok (.expr (.quality "gold")) ∧
      Enclosed notGold ∧
      grammar.parse .predicate
        (⟨some .openParen, 0, "("⟩ :: (notGold ++ [⟨some .closeParen, 9, ")"⟩])) =
        .ok (.expr (.not (.quality "gold"))) ∧
      grammar.parse .predicate notGold = .ok (.expr (.not (.quality "gold"))) := by
  have nameProduced : ⟨.atom, [tok .identifier], Phrase.quality⟩ ∈ productions := by
    simp [productions]
  have hname : Gives .atom (notGold.drop 1) (.expr (.quality "gold")) :=
    .of_rhs nameProduced (.token rfl .nil) rfl
  have hexpression :
      grammar.parse .expression (notGold.drop 1) = .ok (.expr (.quality "gold")) := by
    rw [parse_eq_ok_iff_gives (by decide), Gives.expression_iff]
    exact Gives.weaken (m := 4) (n := 7) (by omega) (by omega) hname
  have notProduced : ⟨.negation, [tok .not, cat .negation], Phrase.not⟩ ∈ productions := by
    simp [productions]
  have hnot : Gives .negation notGold (.expr (.not (.quality "gold"))) :=
    .of_rhs notProduced
      (.token rfl (Gives.weaken (m := 2) (n := 7) (by omega) (by omega) hname)) rfl
  have hpredicate :
      grammar.parse .predicate notGold = .ok (.expr (.not (.quality "gold"))) := by
    rw [parse_eq_ok_iff_gives (by decide), Gives.predicate_iff]
    exact Gives.weaken (m := 0) (n := 2) (by omega) (by omega) hnot
  have henclosed : Enclosed notGold := by decide
  have hwrapped := parentheses_transparent.2.1 .predicate (by simp) ⟨some .openParen, 0, "("⟩
    ⟨some .closeParen, 9, ")"⟩ notGold _ rfl rfl hpredicate
  exact ⟨parentheses_transparent.1 _ _ hexpression, henclosed, hwrapped,
    parentheses_transparent.2.2 _ _ notGold _ rfl rfl henclosed hwrapped⟩

end Logic

end Fabula
