import Mathlib
import Fabula.Logic.Evaluation
import Fabula.Proofs.Logic.Footprint
import Fabula.Proofs.Logic.Parentheses

namespace Fabula

namespace Logic

variable {tokens front back : List (Token LogicTag)} {semicolon : Token LogicTag} {v : Phrase}
  {cs ds : List Command}

namespace Gives

theorem actions_cases (h : Gives .actions tokens v) : Gives .commands tokens v ∨
    ∃ front semicolon, tokens = front ++ [semicolon] ∧ semicolon.tag = some .semicolon ∧
      Gives .commands front v := by
  obtain ⟨q, hq, given, hb, ha⟩ := h.exists_filtered
  have hfilter : productions.filter (·.lhs = .actions) =
      [⟨.actions, [cat .commands], Phrase.pass⟩,
        ⟨.actions, [cat .commands, tok .semicolon], Phrase.pass⟩] := rfl
  rw [hfilter] at hq
  rcases List.mem_pair.mp hq with rfl | rfl
  · exact .inl (of_pass hb ha)
  · obtain ⟨front, rest, value, later, rfl, rfl, hfront, hrest⟩ := hb.split
    cases ha
    cases hrest with
    | token tagged hrest =>
      cases hrest
      exact .inr ⟨front, _, rfl, tagged, hfront⟩

theorem commands_cases (h : Gives .commands tokens v) :
    (∃ c, v = .commands [c] ∧ Gives .command tokens (.command c)) ∨
      ∃ front semicolon back cs c, tokens = front ++ semicolon :: back ∧
        semicolon.tag = some .semicolon ∧
        Gives .commands front (.commands cs) ∧ Gives .command back (.command c) ∧
          v = .commands (cs ++ [c]) := by
  obtain ⟨q, hq, given, hb, ha⟩ := h.exists_filtered
  have hfilter : productions.filter (·.lhs = .commands) =
      [⟨.commands, [cat .command], Phrase.firstCommand⟩,
        ⟨.commands, [cat .commands, tok .semicolon, cat .command], Phrase.nextCommand⟩] := rfl
  rw [hfilter] at hq
  rcases List.mem_pair.mp hq with rfl | rfl
  · obtain ⟨value, rfl⟩ := hb.exists_value
    cases value with
    | command c =>
      cases ha
      exact .inl ⟨c, rfl, hb⟩
    | _ => cases ha
  · obtain ⟨front, rest, first, later, rfl, rfl, hfront, hrest⟩ := hb.split
    cases hrest with
    | token tagged hlast =>
      obtain ⟨last, rfl⟩ := hlast.exists_value
      cases first with
      | commands cs =>
        cases last with
        | command c =>
          cases ha
          exact .inr ⟨front, _, _, cs, c, rfl, tagged, hfront, hlast, rfl⟩
        | _ => cases ha
      | _ => cases ha

theorem commands_snoc {c : Command} (hf : Gives .commands front (.commands cs))
    (hs : semicolon.tag = some .semicolon) (hb : Gives .command back (.command c)) :
    Gives .commands (front ++ semicolon :: back) (.commands (cs ++ [c])) := by
  have produced :
      ⟨.commands, [cat .commands, tok .semicolon, cat .command], Phrase.nextCommand⟩ ∈
        productions := by
    simp [productions]
  exact of_rhs produced (hf.cons (.token hs hb)) rfl

theorem commands_append (hf : Gives .commands front (.commands cs))
    (hs : semicolon.tag = some .semicolon) (hb : Gives .commands back (.commands ds)) :
    Gives .commands (front ++ semicolon :: back) (.commands (cs ++ ds)) := by
  -- The grammar takes the last command off a list first, so the induction does.
  induction ds using List.reverseRecOn generalizing back with
  | nil =>
    rcases hb.commands_cases with ⟨c, heq, -⟩ | ⟨_, _, _, cs', c, -, -, -, -, heq⟩
    · cases heq
    · simp at heq
  | append_singleton init last ih =>
    rcases hb.commands_cases with
        ⟨c, heq, hc⟩ | ⟨before, between, after, cs', c, rfl, htag, hbefore, hc, heq⟩
    · obtain ⟨rfl, rfl⟩ : init = [] ∧ last = c := by
        simpa [List.append_eq_singleton_iff] using heq
      exact commands_snoc hf hs hc
    · obtain ⟨rfl, rfl⟩ : init = cs' ∧ last = c := by
        simpa using heq
      have hjoined := commands_snoc (ih hbefore) htag hc
      rw [List.append_assoc, List.cons_append] at hjoined
      rw [← List.append_assoc]
      exact hjoined

theorem actions_of_commands (h : Gives .commands tokens v) : Gives .actions tokens v := by
  have produced : ⟨.actions, [cat .commands], Phrase.pass⟩ ∈ productions := by
    simp [productions]
  exact of_rhs produced h rfl

theorem actions_of_followed (h : Gives .commands tokens v)
    (hs : semicolon.tag = some .semicolon) : Gives .actions (tokens ++ [semicolon]) v := by
  have produced : ⟨.actions, [cat .commands, tok .semicolon], Phrase.pass⟩ ∈ productions := by
    simp [productions]
  exact of_rhs produced (h.cons (.token hs .nil)) rfl

theorem commands_of_actions (h : Gives .actions tokens v)
    (hlast : ∀ t ∈ tokens.getLast?, t.tag ≠ some .semicolon) : Gives .commands tokens v := by
  rcases h.actions_cases with h | ⟨front, semicolon, rfl, hs, -⟩
  · exact h
  · exact absurd hs (hlast semicolon (by simp))

theorem actions_append (hf : Gives .commands front (.commands cs))
    (hs : semicolon.tag = some .semicolon) (hb : Gives .actions back (.commands ds)) :
    Gives .actions (front ++ semicolon :: back) (.commands (cs ++ ds)) := by
  rcases hb.actions_cases with hb | ⟨init, last, rfl, hlast, hb⟩
  · exact actions_of_commands (commands_append hf hs hb)
  · have hjoined := actions_of_followed (commands_append hf hs hb) hlast
    rwa [List.append_assoc, List.cons_append] at hjoined

end Gives

end Logic

namespace Command

variable {engine : Engine} {visits : Visits} {cs ds : List Command} {q between : Qualities}
  {e : EvalError}

theorem applyAll_append (cs ds : List Command) (q : Qualities) :
    applyAll engine visits (cs ++ ds) q =
      if (applyAll engine visits cs q).2.isOk then
        applyAll engine visits ds (applyAll engine visits cs q).1
      else applyAll engine visits cs q := by
  induction cs generalizing q with
  | nil => rfl
  | cons c cs ih =>
    rw [List.cons_append, applyAll, applyAll]
    cases c.apply engine visits q with
    | error e => rfl
    | ok next => exact ih next

theorem applyAll_eq_error (h : applyAll engine visits cs q = (between, .error e)) :
    ∃ done c rest, cs = done ++ c :: rest ∧ applyAll engine visits done q = (between, .ok ()) ∧
      c.apply engine visits between = .error e := by
  induction cs generalizing q with
  | nil => cases h
  | cons c cs ih =>
    rw [applyAll] at h
    cases hc : c.apply engine visits q with
    | error e' =>
      rw [hc] at h
      cases h
      exact ⟨[], c, cs, rfl, rfl, hc⟩
    | ok next =>
      rw [hc] at h
      obtain ⟨done, c', rest, rfl, hdone, hfail⟩ := ih h
      refine ⟨c :: done, c', rest, rfl, ?_, hfail⟩
      rw [applyAll, hc]
      exact hdone

end Command

namespace Snippet

variable {engine : Engine} {visits : Visits} {q : Qualities} {s : Snippet} {cs : List Command}

theorem apply_of_actions (h : s.program = .actions cs) :
    s.apply engine visits q = Command.applyAll engine visits cs q := by
  rw [apply, h]

theorem run_of_actions (h : s.program = .actions cs) :
    s.run engine visits q =
      ((s.apply engine visits q).1,
        (s.apply engine visits q).2.map fun _ => .applied cs.length) := by
  rw [apply_of_actions h, run, h]
  rfl

end Snippet

/-- Lists of commands compose. What is read from two token lists with a semicolon between them
are the commands of the first and then those of the second, and a semicolon behind the first
changes nothing. Running commands and then others is running the others on what the first leave,
unless these fail; running to an outcome and applying agree on the qualities and the error; and
a run that fails has had the effect of the commands before the one that fails. -/
theorem Logic.actions_compose :
    (∀ front back semicolon cs ds, semicolon.tag = some .semicolon →
      (∀ t ∈ front.getLast?, t.tag ≠ some .semicolon) →
      grammar.parse .actions front = .ok (.commands cs) →
      grammar.parse .actions back = .ok (.commands ds) →
        grammar.parse .actions (front ++ semicolon :: back) = .ok (.commands (cs ++ ds)) ∧
          grammar.parse .actions (front ++ [semicolon]) = .ok (.commands cs)) ∧
      (∀ engine visits q (s s₁ s₂ : Snippet) cs ds, s₁.program = .actions cs →
        s₂.program = .actions ds → s.program = .actions (cs ++ ds) →
          s.apply engine visits q =
            if (s₁.apply engine visits q).2.isOk then
            s₂.apply engine visits (s₁.apply engine visits q).1 else s₁.apply engine visits q) ∧
      ∀ engine visits q (s : Snippet) cs, s.program = .actions cs →
        s.run engine visits q =
            ((s.apply engine visits q).1,
              (s.apply engine visits q).2.map fun _ => .applied cs.length) ∧
          ∀ after e, s.apply engine visits q = (after, .error e) →
            ∃ done c rest, cs = done ++ c :: rest ∧
            Command.applyAll engine visits done q = (after, .ok ()) ∧
              c.apply engine visits after = .error e := by
  refine ⟨?_, ?_, ?_⟩
  · intro front back semicolon cs ds hs hlast hf hb
    rw [parse_eq_ok_iff_gives (by decide)] at hf hb
    replace hf := hf.commands_of_actions hlast
    constructor
    · rw [parse_eq_ok_iff_gives (by decide)]
      exact .actions_append hf hs hb
    · rw [parse_eq_ok_iff_gives (by decide)]
      exact .actions_of_followed hf hs
  · intro engine visits q s s₁ s₂ cs ds h₁ h₂ h
    rw [Snippet.apply_of_actions h, Snippet.apply_of_actions h₁, Snippet.apply_of_actions h₂]
    exact Command.applyAll_append cs ds q
  · intro engine visits q s cs h
    apply And.intro (Snippet.run_of_actions h)
    intro after e he
    rw [Snippet.apply_of_actions h] at he
    exact Command.applyAll_eq_error he

def Logic.haggle : List (Token LogicTag) × List (Token LogicTag) :=
  ([⟨some .identifier, 0, "gold"⟩, ⟨some .equals, 5, "="⟩, ⟨some .identifier, 7, "price"⟩],
    [⟨some .identifier, 14, "seen"⟩, ⟨some .equals, 19, "="⟩, ⟨some .identifier, 21, "missing"⟩,
      ⟨some .openParen, 28, "("⟩, ⟨some .closeParen, 29, ")"⟩, ⟨some .semicolon, 30, ";"⟩])

/-- Both lists are read as one, and running it fails in the second command with the first one
done. -/
theorem Logic.haggle_composed :
    let gold : Command := ⟨"gold", .set, .quality "price"⟩
    let seen : Command := ⟨"seen", .set, .call "missing" []⟩
    let both : Snippet :=
      ⟨"gold = price; seen = missing();", .actions, .actions ([gold] ++ [seen])⟩
    let engine := FunctionTable.standard.engine
    let q : Qualities := ⟨[("price", .bool true)]⟩
    grammar.parse .actions (haggle.1 ++ ⟨some .semicolon, 12, ";"⟩ :: haggle.2) =
      .ok (.commands ([gold] ++ [seen])) ∧
      grammar.parse .actions (haggle.1 ++ [⟨some .semicolon, 12, ";"⟩]) =
        .ok (.commands [gold]) ∧
      both.apply engine .empty q =
        (⟨[("price", .bool true), ("gold", .bool true)]⟩, .error (.unknownFunction "missing")) ∧
      (both.run engine .empty q).1 = (both.apply engine .empty q).1 ∧
      ∃ done c rest, [gold] ++ [seen] = done ++ c :: rest ∧
        Command.applyAll engine .empty done q =
          (⟨[("price", .bool true), ("gold", .bool true)]⟩, .ok ()) ∧
        c.apply engine .empty ⟨[("price", .bool true), ("gold", .bool true)]⟩ =
          .error (.unknownFunction "missing") := by
  intro gold seen both engine q
  have assigned {name sign : Token LogicTag} {tokens : List (Token LogicTag)} {e : Expr}
      (hname : name.tag = some .identifier) (hsign : sign.tag = some .equals)
      (h : Gives .atom tokens (.expr e)) :
      Gives .commands (name :: sign :: tokens) (.commands [⟨name.text, .set, e⟩]) := by
    have hsum : Gives .sum tokens (.expr e) :=
      Gives.weaken (m := 4) (n := 7) (by omega) (by omega) h
    have produced :
        ⟨.command, [tok .identifier, tok .equals, cat .sum], Phrase.assign .set⟩ ∈
          productions := by
      simp [productions]
    have hcommand : Gives .command (name :: sign :: tokens) (.command ⟨name.text, .set, e⟩) :=
      .of_rhs produced (.token hname (.token hsign hsum)) rfl
    have first : ⟨.commands, [cat .command], Phrase.firstCommand⟩ ∈ productions := by
      simp [productions]
    exact .of_rhs first hcommand rfl
  have nameProduced : ⟨.atom, [tok .identifier], Phrase.quality⟩ ∈ productions := by
    simp [productions]
  have callProduced :
      ⟨.atom, [tok .identifier, tok .openParen, tok .closeParen], Phrase.call⟩ ∈
        productions := by
    simp [productions]
  have hgold : grammar.parse .actions haggle.1 = .ok (.commands [gold]) := by
    rw [parse_eq_ok_iff_gives (by decide)]
    exact .actions_of_commands (assigned rfl rfl (.of_rhs nameProduced (.token rfl .nil) rfl))
  have hseen : grammar.parse .actions haggle.2 = .ok (.commands [seen]) := by
    rw [parse_eq_ok_iff_gives (by decide)]
    have hcall : Gives .atom ((haggle.2.drop 2).take 3) (.expr (.call "missing" [])) :=
      .of_rhs callProduced (.token rfl (.token rfl (.token rfl .nil))) rfl
    exact .actions_of_followed (assigned rfl rfl hcall) rfl
  obtain ⟨hparse, happly, hrun⟩ := actions_compose
  obtain ⟨hboth, hfirst⟩ := hparse haggle.1 haggle.2 ⟨some .semicolon, 12, ";"⟩ _ _ rfl
    (by simp [haggle]) hgold hseen
  have hfails : both.apply engine .empty q =
      (⟨[("price", .bool true), ("gold", .bool true)]⟩, .error (.unknownFunction "missing")) :=
    (happly engine .empty q both ⟨"", .actions, .actions [gold]⟩ ⟨"", .actions, .actions [seen]⟩
      _ _ rfl rfl rfl).trans rfl
  obtain ⟨hsame, hdone⟩ := hrun engine .empty q both _ rfl
  exact ⟨hboth, hfirst, hfails, congrArg Prod.fst hsame, hdone _ _ hfails⟩

end Fabula
