import Mathlib
import Fabula.Proofs.Scan.Progress

namespace Fabula

variable {τ α : Type}

/-- A result, unless one of the tokens has no tag: then the error for the first such token. -/
def Token.strictly (tokens : List (Token τ)) (result : α) : Except ScanError α :=
  (tokens.find? (·.tag.isNone)).elim (.ok result) fun t => .error (.unrecognized t.start t.text)

theorem Token.strictly_append (front rest : List (Token τ)) (result : α) :
    strictly (front ++ rest) result = strictly front () >>= fun _ => strictly rest result := by
  simp only [strictly, List.find?_append]
  cases front.find? (·.tag.isNone) with
  | none => rfl
  | some t => rfl

theorem Token.strictly_bind {β : Type} (tokens : List (Token τ)) (result : α)
    (f : α → Except ScanError β) :
    strictly tokens result >>= f = strictly tokens () >>= fun _ => f result := by
  simp only [strictly]
  cases tokens.find? (·.tag.isNone) with
  | none => rfl
  | some t => rfl

namespace Scanner

variable {s : Scanner τ} {p : Place} {offset budget : Nat} {out out' : Array (Token τ)}
  {stretches : List (Stretch τ)} {state : Nat × Array (Token τ)} {source : String}
  {tokens : List (Token τ)}

section Strict

theorem emit_of_strict {stretch : Stretch τ} (h : emit false offset out stretch = .ok state) :
    emit true offset out stretch = .ok state := by
  cases stretch with
  | unclaimed text => cases h
  | claimed effect text => exact h

theorem emitAll_of_strict
    (h : stretches.foldlM (fun state => emit false state.1 state.2) (offset, out) = .ok state) :
    stretches.foldlM (fun state => emit true state.1 state.2) (offset, out) = .ok state := by
  induction stretches generalizing offset out with
  | nil => exact h
  | cons stretch rest ih =>
    rw [List.foldlM_cons] at h ⊢
    obtain ⟨between, hone, hrest⟩ := bind_eq_ok_iff.mp h
    rw [emit_of_strict hone]
    exact ih hrest

theorem scanFrom_of_strict (h : s.scanFrom false budget offset p out = .ok out') :
    s.scanFrom true budget offset p out = .ok out' := by
  induction budget generalizing offset p out with
  | zero => exact h
  | succ budget ih =>
    by_cases hleft : p.left = 0
    · rw [scanFrom_end hleft] at h ⊢
      exact h
    · rw [scanFrom, if_neg hleft] at h ⊢
      dsimp only at h ⊢
      split at h
      · rename_i hfold
        rw [emitAll_of_strict hfold]
        exact ih h
      · cases h

end Strict

section Lenient

theorem emit_strict {stretch : Stretch τ} (h : ∀ text, stretch ≠ .claimed .untagged text)
    (offset : Nat) (out : Array (Token τ)) : emit false offset out stretch =
      Token.strictly (stretch.token? offset).toList
        (offset + Stretch.bytes stretch.text, out ++ (stretch.token? offset).toList) := by
  cases stretch with
  | unclaimed text => rfl
  | claimed effect text =>
    have hlenient := emit_lenient offset out (.claimed effect text)
    cases effect with
    | tagged tag => exact hlenient
    | discarded => exact hlenient
    | untagged => exact absurd rfl (h text)

theorem emitAll_strict (h : ∀ text, .claimed .untagged text ∉ stretches) (offset : Nat)
    (out : Array (Token τ)) :
    stretches.foldlM (fun state => emit false state.1 state.2) (offset, out) =
      Token.strictly (Stretch.tokensFrom offset stretches)
        (offset + Stretch.bytes (Stretch.textOf stretches),
          out ++ Stretch.tokensFrom offset stretches) := by
  induction stretches generalizing offset out with
  | nil => exact emitAll_lenient [] offset out
  | cons stretch rest ih =>
    have hone : ∀ text, stretch ≠ .claimed .untagged text := by
      intro text heq
      apply h text
      rw [heq]
      exact List.mem_cons_self
    have hrest : ∀ text, .claimed .untagged text ∉ rest := by
      intro text hmem
      exact h text (List.mem_cons_of_mem _ hmem)
    -- The lenient scan of the rest ends as that of the whole does.
    have hwhole := emitAll_lenient (stretch :: rest) offset out
    rw [List.foldlM_cons, emit_lenient] at hwhole
    have hsame := Except.ok.inj ((emitAll_lenient rest _ _).symm.trans hwhole)
    rw [List.foldlM_cons, emit_strict hone, Token.strictly_bind, Stretch.tokensFrom,
      Token.strictly_append]
    apply congrArg
    funext _
    rw [ih hrest, hsame]
    rfl

theorem scanFrom_strict (hkept : ∀ p text, .claimed .untagged text ∉ (s.step p).1)
    (h : s.scanFrom true budget offset p out = .ok out') :
    ∃ new, out'.toList = out.toList ++ new ∧
      s.scanFrom false budget offset p out = Token.strictly new out' := by
  induction budget generalizing offset p out with
  | zero =>
    apply Exists.intro []
    by_cases hleft : p.left = 0
    · rw [scanFrom_end hleft] at h ⊢
      cases h
      exact ⟨(List.append_nil _).symm, rfl⟩
    · rw [scanFrom, if_neg hleft] at h
      cases h
  | succ budget ih =>
    by_cases hleft : p.left = 0
    · rw [scanFrom_end hleft] at h ⊢
      cases h
      exact ⟨[], (List.append_nil _).symm, rfl⟩
    · rw [scanFrom, if_neg hleft] at h ⊢
      simp only [emitAll_lenient] at h
      obtain ⟨new, hnew, hstrict⟩ := ih h
      apply Exists.intro (Stretch.tokensFrom offset (s.step p).1 ++ new)
      constructor
      · simpa using hnew
      · rw [Token.strictly_append, ← hstrict]
        simp only [emitAll_strict (hkept p), Token.strictly]
        cases (Stretch.tokensFrom offset (s.step p).1).find? (·.tag.isNone) with
        | none => rfl
        | some t => rfl

end Lenient

theorem scan_of_strict (h : s.scan false source = .ok tokens) :
    s.scan true source = .ok tokens := by
  obtain ⟨out, hout, rfl⟩ := map_eq_ok_iff.mp h
  rw [scan, scanFrom_of_strict hout]
  rfl

theorem scan_strict (hkept : ∀ p text, .claimed .untagged text ∉ (s.step p).1)
    (h : s.scan true source = .ok tokens) :
    s.scan false source = Token.strictly tokens tokens := by
  obtain ⟨out, hout, rfl⟩ := map_eq_ok_iff.mp h
  obtain ⟨new, hnew, hstrict⟩ := scanFrom_strict hkept hout
  rw [scan, hstrict, hnew, List.nil_append, Token.strictly, Token.strictly]
  cases new.find? (·.tag.isNone) with
  | none => exact congrArg Except.ok hnew
  | some t => rfl

end Scanner

namespace Table

variable {table : Table τ} {source : String} {tokens : List (Token τ)}

theorem effect_of_step {p : Place} {effect : Effect τ} {text : List Char}
    (h : .claimed effect text ∈ (table.scanner.step p).1) :
    ∃ rule ∈ table.rules, rule.effect = effect := by
  rcases step_cases table p with
    ⟨rule, stop, hwins, hstep⟩ | ⟨skipped, q, rule, stop, -, -, hwins, hstep⟩ | ⟨-, -, hstep⟩
  · rw [hstep, List.mem_singleton] at h
    cases h
    exact ⟨rule, hwins.mem, rfl⟩
  · rw [hstep, List.mem_pair] at h
    rcases h with h | h
    · cases h
    · cases h
      exact ⟨rule, hwins.mem, rfl⟩
  · rw [hstep, List.mem_singleton] at h
    cases h

theorem scan_strict (hrules : ∀ rule ∈ table.rules, rule.effect ≠ .untagged)
    (h : table.scan true source = .ok tokens) :
    table.scan false source = Token.strictly tokens tokens := by
  apply Scanner.scan_strict _ h
  intro p text hmem
  obtain ⟨rule, hrule, heffect⟩ := effect_of_step hmem
  exact hrules rule hrule heffect

/-- Strict and lenient scans agree. What a strict scan gives, the lenient scan of the same text
gives under the same cap. And if no rule claims text without giving it a tag, the strict scan
can be told from the tokens of the lenient one: it gives them if all of them have tags, and
otherwise fails at the first that has none. -/
theorem strict_agrees_with_lenient (table : Table τ) (source : String) :
    (∀ tokens, table.scan false source = .ok tokens → table.scan true source = .ok tokens) ∧
      ((∀ rule ∈ table.rules, rule.effect ≠ .untagged) →
        ∀ tokens, table.scan true source = .ok tokens →
        ((∀ t ∈ tokens, t.tag ≠ none) → table.scan false source = .ok tokens) ∧
          ∀ front t rest, tokens = front ++ t :: rest → (∀ u ∈ front, u.tag ≠ none) →
          t.tag = none →
            table.scan false source = .error (.unrecognized t.start t.text)) := by
  constructor
  · intro tokens
    exact Scanner.scan_of_strict
  · intro hrules tokens h
    rw [scan_strict hrules h, Token.strictly]
    constructor
    · intro htagged
      rw [List.find?_eq_none.mpr (by simpa using htagged)]
      rfl
    · intro front t rest hsplit hfront ht
      have hfirst : tokens.find? (·.tag.isNone) = some t := by
        rw [hsplit, List.find?_append, List.find?_eq_none.mpr (by simpa using hfront)]
        simp [ht]
      rw [hfirst]
      rfl

def wordTable : Table Nat :=
  ⟨[.tagged 0 (.some1 (.char 'a')), .discarded (.some1 (.char ' '))], 7⟩

/-- Both scans of `aa a` give its two words; of `aa ?é a!` the strict one gives nothing but the
place and the text of the first stretch that the lenient one has no tag for. -/
theorem wordTable_strict :
    (∀ rule ∈ wordTable.rules, rule.effect ≠ .untagged) ∧
      wordTable.scan false "aa a" = .ok [⟨some 0, 0, "aa"⟩, ⟨some 0, 3, "a"⟩] ∧
      wordTable.scan true "aa a" = .ok [⟨some 0, 0, "aa"⟩, ⟨some 0, 3, "a"⟩] ∧
      wordTable.scan true "aa ?é a!" =
        .ok [⟨some 0, 0, "aa"⟩, ⟨none, 3, "?é"⟩, ⟨some 0, 7, "a"⟩, ⟨none, 8, "!"⟩] ∧
      wordTable.scan false "aa ?é a!" = .error (.unrecognized 3 "?é") := by
  have hrules : ∀ rule ∈ wordTable.rules, rule.effect ≠ .untagged := by
    simp [wordTable, Rule.tagged, Rule.discarded]
  have hwords : wordTable.scan true "aa a" = .ok [⟨some 0, 0, "aa"⟩, ⟨some 0, 3, "a"⟩] := by
    decide +kernel
  have hlenient : wordTable.scan true "aa ?é a!" =
      .ok [⟨some 0, 0, "aa"⟩, ⟨none, 3, "?é"⟩, ⟨some 0, 7, "a"⟩, ⟨none, 8, "!"⟩] := by
        decide +kernel
  obtain ⟨hsame, htagged⟩ := strict_agrees_with_lenient wordTable "aa a"
  obtain ⟨-, hfirst⟩ := strict_agrees_with_lenient wordTable "aa ?é a!"
  have hstrict := (htagged hrules _ hwords).1 (by simp)
  obtain ⟨-, herror⟩ := hfirst hrules _ hlenient
  exact ⟨hrules, hstrict, hsame _ hstrict, hlenient,
    herror [⟨some 0, 0, "aa"⟩] ⟨none, 3, "?é"⟩ _ rfl (by simp) rfl⟩

end Table

end Fabula
