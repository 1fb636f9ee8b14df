import Mathlib
import Fabula.Logic.Rules
import Fabula.Proofs.Scan.LineEnds

namespace Fabula

namespace Pattern

variable {α : Type} {p q : Place} {k : Place → Option α} {accepts : Char → Bool}
  {text : List Char}

/-- A text is passed by the pattern of any other that differs in letter case only. -/
theorem run_anyCaseText {cs : List Char} (h : text.map foldCase = cs.map foldCase)
    (hp : p.Passes text q) : (anyCaseText cs).run p k = k q := by
  fun_induction anyCaseText cs generalizing p text with
  | case1 =>
    rw [List.map_nil, List.map_eq_nil_iff] at h
    subst h
    rw [run, (Place.Passes.refl p).unique hp]
  | case2 c =>
    obtain ⟨d, rfl, hd⟩ := List.map_eq_singleton_iff.mp h
    rw [run_one hp.next?_eq, if_pos (by simpa using hd)]
  | case3 c cs _ ih =>
    obtain ⟨d, rest, rfl, hd, hrest⟩ := List.map_eq_cons_iff.mp h
    obtain ⟨r, hr, hq⟩ := Place.Passes.split (s := [d]) hp
    rw [run, run_one hr.next?_eq, if_pos (by simpa using hd), ih hrest hq]

theorem accepts_of_takes_many (h : (many (one accepts)).Takes text) :
    ∀ c ∈ text, accepts c = true := by
  obtain ⟨parts, hparts, rfl⟩ := h
  intro c hc
  obtain ⟨part, hpart, hc⟩ := List.mem_flatten.mp hc
  obtain ⟨d, hd, rfl⟩ := hparts part hpart
  rwa [List.mem_singleton.mp hc]

end Pattern

namespace Number

variable {c : Char} {cs : List Char}

theorem toLower_of_isDigit (hc : c.isDigit = true) : c.toLower = c := by
  apply Char.toLower_eq_of_not_isUpper
  simp [Char.isDigit, Char.isUpper, UInt32.le_iff_toNat_le] at hc ⊢
  omega

theorem lower_ne_of_isDigit {word : String} (hc : c.isDigit = true)
    (hword : word.toList.head?.any Char.isDigit = false) :
    (String.ofList ((c :: cs).map Char.toLower) == word) = false := by
  rw [beq_eq_false_iff_ne]
  rintro rfl
  simp [toLower_of_isDigit hc, hc] at hword

theorem read?_of_isDigit (hc : c.isDigit = true) :
    read? (String.ofList (c :: cs)) = readUnsigned? false (c :: cs) := by
  unfold read?
  rw [String.toList_ofList]
  split
  · rename_i heq
    cases heq
    cases hc
  · rename_i heq
    cases heq
    cases hc
  · rfl

theorem exists_read {whole rest fraction : List Char} (hwhole : ∀ c ∈ whole, c.isDigit = true)
    (hne : whole ≠ []) (hfraction : ∀ c ∈ fraction, c.isDigit = true)
    (hrest : rest = [] ∨ rest = '.' :: fraction) :
    ∃ n, read? (String.ofList (whole ++ rest)) = some n := by
  obtain ⟨c, more, rfl⟩ := List.exists_cons_of_ne_nil hne
  have hc : c.isDigit = true := hwhole c List.mem_cons_self
  rw [List.cons_append, read?_of_isDigit hc, readUnsigned?,
    lower_ne_of_isDigit hc (by decide +kernel), lower_ne_of_isDigit hc (by decide +kernel),
    lower_ne_of_isDigit hc (by decide +kernel), ← List.cons_append,
    List.takeWhile_append_of_pos hwhole, List.dropWhile_append_of_pos hwhole]
  rcases hrest with rfl | rfl
  · simp [readExponent?]
  · have hdot : '.'.isDigit = false := rfl
    simp [readExponent?, hdot, List.dropWhile_eq_nil_iff.mpr hfraction]

end Number

namespace Lexicon

open Pattern

variable {text : List Char}

def keywords : List (LogicTag × String) :=
  [(.and, "and"), (.or, "or"), (.not, "not"), (.true, "true"), (.false, "false")]

/-- The word is a keyword, whatever the case of its letters. -/
def IsKeyword (word : String) : Prop := ∃ keyword ∈ keywords, word.toLower = keyword.2

instance (word : String) : Decidable (IsKeyword word) :=
  inferInstanceAs (Decidable (∃ keyword ∈ keywords, word.toLower = keyword.2))

theorem rules_eq :
    rules = keywords.map (fun keyword => .tagged keyword.1 (anyCase keyword.2)) ++
      rules.drop 5 :=
  rfl

theorem keyword_lower : ∀ keyword ∈ keywords,
    keyword.1 ≠ .identifier ∧ keyword.2.toList = keyword.2.toList.map foldCase := by
  decide +kernel

theorem pattern_of_effect {rule : Rule LogicTag} (h : rule ∈ rules) :
    (rule.effect = .tagged .number → rule.pattern = number) ∧
      (rule.effect = .tagged .identifier → rule.pattern = name) ∧
      (rule.effect = .tagged .visit → rule.pattern = visit) := by
  revert rule
  simp [rules, Rule.tagged, Rule.discarded]

theorem foldCase_eq_toLower {c : Char} (h : isNameRest c = true) : foldCase c = c.toLower := by
  have hbound : c.toNat < 128 := by
    simp only [isNameRest, isNameStart, isDigit, Bool.or_eq_true, Bool.and_eq_true,
      decide_eq_true_eq, beq_iff_eq, Char.le_def, UInt32.le_iff_toNat_le] at h
    rcases h with ((⟨-, h⟩ | ⟨-, h⟩) | rfl) | ⟨-, h⟩
    · exact h.trans_lt (by decide)
    · exact h.trans_lt (by decide)
    · decide
    · exact h.trans_lt (by decide)
  rw [foldCase, if_neg (by simp; omega), if_neg (by simp; omega)]

theorem isDigit_of_takes (h : digits.Takes text) :
    text ≠ [] ∧ ∀ c ∈ text, c.isDigit = true := by
  obtain ⟨_, rest, ⟨c, hc, rfl⟩, hrest, rfl⟩ := h
  refine ⟨by simp, ?_⟩
  intro d hd
  rcases List.mem_cons.mp hd with rfl | hd
  · exact hc
  · exact accepts_of_takes_many hrest d hd

theorem isNameStart_of_takes (h : name.Takes text) :
    ∃ c cs, text = c :: cs ∧ isNameStart c = true ∧ ∀ d ∈ cs, isNameRest d = true := by
  obtain ⟨_, rest, ⟨c, hc, rfl⟩, hrest, rfl⟩ := h
  exact ⟨c, rest, rfl, hc, accepts_of_takes_many hrest⟩

theorem exists_read_of_takes (h : number.Takes text) :
    ∃ n, Number.read? (String.ofList text) = some n := by
  obtain ⟨whole, rest, hwhole, hrest, rfl⟩ := h
  obtain ⟨hne, hwhole⟩ := isDigit_of_takes hwhole
  rcases hrest with ⟨_, fraction, ⟨c, hc, rfl⟩, hfraction, rfl⟩ | rfl
  · cases beq_iff_eq.mp hc
    exact Number.exists_read hwhole hne (isDigit_of_takes hfraction).2 (.inr rfl)
  · exact Number.exists_read hwhole hne (List.forall_mem_nil _) (.inl rfl)

theorem at_sceneOf_of_takes (h : visit.Takes text) :
    String.ofList text = "@" ++ Phrase.sceneOf (String.ofList text) := by
  obtain ⟨_, _, ⟨c, hc, rfl⟩, ⟨first, rest, hfirst, -, rfl⟩, rfl⟩ := h
  cases beq_iff_eq.mp hc
  obtain ⟨d, ds, rfl, hd, -⟩ := isNameStart_of_takes hfirst
  have hat : d ≠ '@' := by
    rintro rfl
    cases hd
  have hdrop : (['@'] ++ (d :: ds ++ rest)).dropWhile (· == '@') = d :: ds ++ rest := by
    simp [hat]
  rw [Phrase.sceneOf, String.toList_ofList, hdrop, String.ofList_append]

/-- A name that wins is no keyword, for the pattern of the keyword would stop at the same
place. -/
theorem not_isKeyword_of_wins {p stop : Place} {rule : Rule LogicTag}
    (h : Table.Wins rules p rule stop) (heffect : rule.effect = .tagged .identifier) :
    ¬ IsKeyword (String.ofList (p.upTo stop)) := by
  rintro ⟨keyword, hmem, hlower⟩
  have htakes := takes_of_match h.1
  rw [(pattern_of_effect h.mem).2.1 heffect] at htakes
  obtain ⟨c, cs, htext, hc, hcs⟩ := isNameStart_of_takes htakes
  have hletters : ∀ d ∈ p.upTo stop, isNameRest d = true := by
    rw [htext]
    exact List.forall_mem_cons.mpr ⟨by simp [isNameRest, hc], hcs⟩
  have hfold : (p.upTo stop).map foldCase = keyword.2.toList.map foldCase :=
    calc (p.upTo stop).map foldCase
      _ = (p.upTo stop).map Char.toLower :=
        List.map_congr_left fun d hd => foldCase_eq_toLower (hletters d hd)
      _ = keyword.2.toList := by
        rw [← hlower, String.toLower, String.toList_map, String.toList_ofList]
      _ = keyword.2.toList.map foldCase := (keyword_lower keyword hmem).2
  have hmatch : (anyCase keyword.2).match? p = some stop := run_anyCaseText hfold h.passes
  rw [rules_eq] at h
  apply (h.left_lt _ (List.mem_map_of_mem hmem) hmatch).false
  intro hblock
  obtain ⟨other, hother, rfl⟩ := List.mem_map.mp hblock
  exact (keyword_lower other hother).1 (Effect.tagged.inj heffect)

end Lexicon

/-- The text of the token is one that its tag stands for. -/
structure Token.Apt (t : Token LogicTag) : Prop where
  number : t.tag = some .number → ∃ n, Number.read? t.text = some n
  identifier : t.tag = some .identifier → ¬ Lexicon.IsKeyword t.text
  visit : t.tag = some .visit → t.text = "@" ++ Phrase.sceneOf t.text

namespace Lexicon

theorem apt_of_scan {maxSteps : Nat} {lenient : Bool} {source : String}
    {tokens : List (Token LogicTag)} (h : (table maxSteps).scan lenient source = .ok tokens)
    {t : Token LogicTag} (ht : t ∈ tokens) : t.Apt := by
  have hwins {tag : LogicTag} (htag : t.tag = some tag) :
      ∃ p rule stop, rule.effect = .tagged tag ∧
      Table.Wins rules p rule stop ∧ rule.pattern.Takes (p.upTo stop) ∧
        t.text = String.ofList (p.upTo stop) := by
    obtain ⟨p, rule, stop, heffect, hwins, htext⟩ := Table.wins_of_scan h ht htag
    refine ⟨p, rule, stop, heffect, hwins, Pattern.takes_of_match hwins.1, ?_⟩
    rw [← htext, String.ofList_toList]
  constructor
  · intro htag
    obtain ⟨p, rule, stop, heffect, hwins, htakes, htext⟩ := hwins htag
    rw [(pattern_of_effect hwins.mem).1 heffect] at htakes
    rw [htext]
    exact exists_read_of_takes htakes
  · intro htag
    obtain ⟨p, rule, stop, heffect, hwins, htakes, htext⟩ := hwins htag
    rw [htext]
    exact not_isKeyword_of_wins hwins heffect
  · intro htag
    obtain ⟨p, rule, stop, heffect, hwins, htakes, htext⟩ := hwins htag
    rw [(pattern_of_effect hwins.mem).2.2 heffect] at htakes
    rw [htext]
    exact at_sceneOf_of_takes htakes

end Lexicon

end Fabula
