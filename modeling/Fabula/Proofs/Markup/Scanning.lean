import Fabula.Proofs.Markup.Resolution
import Fabula.Proofs.Scan.Tiling

namespace Fabula

namespace Feature

variable {tokens : List (Token Feature)} {maxSteps : Nat} {source : String} {lenient : Bool}

theorem isInline_of_scan (h : (table false maxSteps).scan lenient source = .ok tokens) :
    ∀ t ∈ tokens, ∀ feature ∈ t.tag, feature.isInline = true := by
  intro t ht feature hf
  obtain ⟨p, rule, stop, heffect, hwins, -⟩ := Table.wins_of_scan h ht hf
  have hall : ∀ rule ∈ inlineRules, ∀ tag, rule.effect = .tagged tag → tag.isInline = true := by
    simp [inlineRules, Rule.tagged, isInline]
  exact hall rule hwins.mem feature heffect

def sign? : Feature → Option String
  | insertClose => some "+"
  | conditionalClose => some "?"
  | _ => none

theorem mem_rules {collect : Bool} {rule : Rule Feature}
    (h : rule ∈ (table collect maxSteps).rules) : rule ∈ inlineRules ++ paragraphRules := by
  cases collect with
  | true => exact h
  | false => exact List.mem_append_left _ h

theorem text_of_lit {collect : Bool}
    (h : (table collect maxSteps).scan lenient source = .ok tokens) {feature : Feature}
    {s : String}
    (hlit : ∀ rule ∈ inlineRules ++ paragraphRules, rule.effect = .tagged feature →
      rule.pattern = Pattern.lit s) :
    ∀ t ∈ tokens, feature ∈ t.tag → t.text = s := by
  intro t ht hf
  obtain ⟨p, rule, stop, heffect, hwins, htext⟩ := Table.wins_of_scan h ht hf
  have hmatch := hwins.1
  rw [hlit rule (mem_rules hwins.mem) heffect] at hmatch
  rw [← String.toList_inj, htext, Pattern.upTo_of_match_lit hmatch]

theorem text_of_sign {collect : Bool}
    (h : (table collect maxSteps).scan lenient source = .ok tokens) :
    ∀ t ∈ tokens, ∀ feature ∈ t.tag, ∀ sign ∈ feature.sign?, t.text = sign ++ "]" := by
  intro t ht feature hf sign hsign
  refine text_of_lit h ?_ t ht hf
  cases feature with
  | insertClose =>
    cases hsign
    simp [inlineRules, paragraphRules, Rule.tagged]
  | conditionalClose =>
    cases hsign
    simp [inlineRules, paragraphRules, Rule.tagged]
  | _ => cases hsign

end Feature

end Fabula
