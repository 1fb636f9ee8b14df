import Mathlib
import Fabula.Proofs.Logic.Words
import Fabula.Proofs.Scan.Blanks

namespace Fabula.Lexicon

open Pattern

variable {α : Type} {p q : Place} {k : Place → Option α} {text : List Char} {tag : LogicTag}
  {word : String}

def signs : List (LogicTag × String) :=
  [(.notEquals, "!="), (.lessEquals, "<="), (.greaterEquals, ">="), (.less, "<"),
    (.greater, ">"),
   (.plusEquals, "+="), (.minusEquals, "-="), (.timesEquals, "*="), (.divideEquals, "/="),
   (.equals, "="), (.plus, "+"), (.minus, "-"), (.times, "*"), (.divide, "/"), (.modulo, "%"),
   (.openParen, "("), (.closeParen, ")"), (.comma, ","), (.semicolon, ";")]

/-- A letter or underscore, then letters, underscores and digits. -/
def IsName (cs : List Char) : Prop :=
  ∃ c rest, cs = c :: rest ∧ isNameStart c = true ∧ ∀ d ∈ rest, isNameRest d = true

def IsDigits (cs : List Char) : Prop := cs ≠ [] ∧ ∀ c ∈ cs, isDigit c = true

inductive Spelled : LogicTag → String → Prop where
  | keyword {tag : LogicTag} {word : String} (known : (tag, word.toLower) ∈ keywords) :
      Spelled tag word
  | sign {tag : LogicTag} {word : String} (known : (tag, word) ∈ signs) : Spelled tag word
  | whole {word : String} (digits : IsDigits word.toList) : Spelled .number word
  | fraction {word : String} {whole part : List Char}
      (split : word.toList = whole ++ '.' :: part)
      (digits : IsDigits whole) (more : IsDigits part) : Spelled .number word
  | name {word : String} (shape : IsName word.toList) (free : ¬ IsKeyword word) :
      Spelled .identifier word
  | visit {word : String} {first : List Char} {others : List (List Char)}
      (split : word.toList = '@' :: (first ++ others.flatMap ('.' :: ·))) (shape : IsName first)
      (shapes : ∀ name ∈ others, IsName name) : Spelled .visit word

section Table

theorem spaced : Table.Spaced rules := by
  constructor
  · simp [rules, Rule.tagged, Rule.discarded, blankRun]
  · have hsolid : ∀ rule ∈ rules.dropLast, rule.pattern.solid = true := by decide +kernel
    intro rule hrule
    rw [← List.dropLast_append_getLast (List.ne_nil_of_mem hrule), List.mem_append,
      List.mem_singleton] at hrule
    exact hrule.symm.imp id (hsolid rule)

theorem rules_split :
    rules = keywords.map (fun keyword => Rule.tagged keyword.1 (anyCase keyword.2)) ++
      ((signs.take 15).map (fun sign => Rule.tagged sign.1 (lit sign.2)) ++
        ([Rule.tagged .number number, Rule.tagged .identifier name, Rule.tagged .visit visit] ++
          ((signs.drop 15).map (fun sign => Rule.tagged sign.1 (lit sign.2)) ++
            [Rule.discarded .blankRun]))) :=
  rfl

theorem mem_rules_of_keyword {keyword : LogicTag × String} (h : keyword ∈ keywords) :
    .tagged keyword.1 (anyCase keyword.2) ∈ rules := by
  rw [rules_split]
  exact List.mem_append_left _ (List.mem_map_of_mem h)

theorem mem_rules_of_sign {sign : LogicTag × String} (h : sign ∈ signs) :
    .tagged sign.1 (lit sign.2) ∈ rules := by
  rw [← List.take_append_drop 15 signs, List.mem_append] at h
  rw [rules_split]
  simp only [List.mem_append]
  rcases h with h | h
  · exact .inr (.inl (List.mem_map_of_mem h))
  · exact .inr (.inr (.inr (.inl (List.mem_map_of_mem h))))

theorem rule_cases {rule : Rule LogicTag} (h : rule ∈ rules) :
    (∃ keyword ∈ keywords, rule = .tagged keyword.1 (anyCase keyword.2)) ∨
      (∃ sign ∈ signs, rule = .tagged sign.1 (lit sign.2)) ∨
      rule ∈ [.tagged .number number, .tagged .identifier name, .tagged .visit visit] ∨
      rule = .discarded .blankRun := by
  rw [rules_split] at h
  simp only [List.mem_append, List.mem_map, List.mem_singleton] at h
  rcases h with ⟨keyword, hmem, rfl⟩ | ⟨sign, hmem, rfl⟩ | h | ⟨sign, hmem, rfl⟩ | h
  · exact .inl ⟨keyword, hmem, rfl⟩
  · exact .inr (.inl ⟨sign, List.mem_of_mem_take hmem, rfl⟩)
  · exact .inr (.inr (.inl h))
  · exact .inr (.inl ⟨sign, List.mem_of_mem_drop hmem, rfl⟩)
  · exact .inr (.inr (.inr h))

end Table

section Matching

theorem refused_of_atGap {f : Char → Bool} (hq : q.AtGap)
    (hf : Text.blankCodes.all (fun n => !f (Char.ofNat n)) = true) :
    ∀ c ∈ q.after.head?, f c = false := by
  intro c hc
  simpa using Text.of_blankCodes (f := fun c => !f c) hf (hq c hc)

theorem run_name (hname : IsName text) (hp : p.Passes text q)
    (hq : ∀ c ∈ q.after.head?, isNameRest c = false) (hk : (k q).isSome) :
    name.run p k = k q := by
  obtain ⟨c, rest, rfl, hc, hrest⟩ := hname
  obtain ⟨m, hm, hmore⟩ := Place.Passes.split (s := [c]) hp
  rw [name, run, run_one_accepted hm hc]
  exact run_many_one hmore hrest hq hk

theorem run_digits (hdigits : IsDigits text) (hp : p.Passes text q)
    (hq : ∀ c ∈ q.after.head?, isDigit c = false) (hk : (k q).isSome) : digits.run p k = k q :=
  run_some1_one hp hdigits.1 hdigits.2 hq hk

theorem match_whole (hdigits : IsDigits text) (hp : p.Passes text q) (hq : q.AtGap) :
    number.match? p = some q := by
  have hpoint : (opt true (seq (char '.') digits)).run q some = some q := by
    have hnone : (char '.').run q (fun r => digits.run r some) = none :=
      run_one_refused (refused_of_atGap hq (by decide +kernel))
    simp [opt, run, hnone]
  rw [Pattern.match?, number, run,
    run_digits hdigits hp (refused_of_atGap hq (by decide +kernel)) (by rw [hpoint]; rfl)]
  exact hpoint

theorem match_fraction {whole part : List Char} (hwhole : IsDigits whole)
    (hpart : IsDigits part) (hp : p.Passes (whole ++ '.' :: part) q) (hq : q.AtGap) :
    number.match? p = some q := by
  obtain ⟨m, hm, hmore⟩ := hp.split
  obtain ⟨r, hr, hrest⟩ := Place.Passes.split (s := ['.']) hmore
  have hpoint : (opt true (seq (char '.') digits)).run m some = some q := by
    have hsome : (char '.').run m (fun r => digits.run r some) = some q := by
      rw [char, run_one_accepted hr rfl]
      exact run_digits hpart hrest (refused_of_atGap hq (by decide +kernel)) rfl
    simp [opt, run, hsome]
  have hdot : ∀ c ∈ m.after.head?, isDigit c = false := by
    rw [hr.after]
    simp [isDigit]
  rw [Pattern.match?, number, run, run_digits hwhole hm hdot (by rw [hpoint]; rfl)]
  exact hpoint

/-- Behind a name of a visit comes the point before the next one, or what comes behind the
visit. -/
theorem next_refused {others : List (List Char)} (hp : p.Passes (others.flatMap ('.' :: ·)) q)
    (hq : ∀ c ∈ q.after.head?, isNameRest c = false) :
    ∀ c ∈ p.after.head?, isNameRest c = false := by
  cases others with
  | nil =>
    cases hp.unique (.refl p)
    exact hq
  | cons first others =>
    rw [hp.after]
    simp [isNameRest, isNameStart, isDigit]

theorem run_names {others : List (List Char)} (hnames : ∀ name ∈ others, IsName name)
    (hp : p.Passes (others.flatMap ('.' :: ·)) q)
    (hrest : ∀ c ∈ q.after.head?, isNameRest c = false)
    (hdot : ∀ c ∈ q.after.head?, (c == '.') = false) (hk : (k q).isSome) :
    (many (seq (char '.') name)).run p k = k q := by
  have hrounds (n : Nat) (hn : others.length ≤ n) :
      rounds true (fun q l => (seq (char '.') name).run q l) n p k = k q := by
    -- A round takes one name with its point, since only a point or a gap ends a name.
    induction others generalizing p n with
    | nil =>
      cases hp.unique (.refl p)
      have hnone (l : Place → Option α) : (seq (char '.') name).run q l = none :=
        run_one_refused hdot
      exact rounds_stop hnone n
    | cons first others ih =>
      obtain ⟨hfirst, hothers⟩ := List.forall_mem_cons.mp hnames
      obtain ⟨m, hm, hmore⟩ := Place.Passes.split (s := '.' :: first) hp
      obtain ⟨r, hr, hname⟩ := Place.Passes.split (s := ['.']) hm
      cases n with
      | zero => cases hn
      | succ n =>
        have hlater := ih hothers hmore n (Nat.le_of_succ_le_succ hn)
        have hround (l : Place → Option α) (hl : (l m).isSome) :
            (seq (char '.') name).run p l = l m := by
          rw [run, char, run_one_accepted hr rfl]
          exact run_name hfirst hname (next_refused hmore hrest) hl
        rw [rounds_step hround (hm.left_lt_iff.mpr (by simp)) (by rwa [hlater]), hlater]
  have hlength (names : List (List Char)) :
      names.length ≤ (names.flatMap ('.' :: ·)).length := by
    induction names with
    | nil => exact Nat.le_refl _
    | cons first names ih =>
      simp only [List.flatMap_cons, List.length_append, List.length_cons]
      omega
  apply hrounds
  rw [hp.left_eq]
  exact Nat.le_add_right_of_le (hlength others)

theorem match_visit {first : List Char} {others : List (List Char)} (hfirst : IsName first)
    (hothers : ∀ name ∈ others, IsName name)
    (hp : p.Passes ('@' :: (first ++ others.flatMap ('.' :: ·))) q) (hq : q.AtGap) :
    visit.match? p = some q := by
  obtain ⟨m, hm, hmore⟩ := Place.Passes.split (s := ['@']) hp
  obtain ⟨r, hr, hnames⟩ := hmore.split
  have hrest : ∀ c ∈ q.after.head?, isNameRest c = false :=
    refused_of_atGap hq (by decide +kernel)
  have hdot : ∀ c ∈ q.after.head?, (c == '.') = false := refused_of_atGap hq (by decide +kernel)
  have hvisit : (many (seq (char '.') name)).run r some = some q :=
    run_names hothers hnames hrest hdot rfl
  rw [Pattern.match?, visit, run, char, run_one_accepted hm rfl, run,
    run_name hfirst hr (next_refused hnames hrest) (by rw [hvisit]; rfl)]
  exact hvisit

theorem foldCase_of_isNameRest_toLower {c : Char} (h : isNameRest c.toLower = true) :
    foldCase c = c.toLower := by
  have hne {n : Nat} (hn : isNameRest (Char.ofNat n).toLower = false) : c.toNat ≠ n := by
    intro heq
    rw [← heq, Char.ofNat_toNat, h] at hn
    cases hn
  have hlong : c.toNat ≠ 0x17F := hne (by decide +kernel)
  have hkelvin : c.toNat ≠ 0x212A := hne (by decide +kernel)
  simp [foldCase, hlong, hkelvin]

theorem map_foldCase_of_keyword (h : (tag, word.toLower) ∈ keywords) :
    word.toList.map foldCase = word.toLower.toList := by
  have hletters : ∀ keyword ∈ keywords, keyword.2.toList.all isNameRest = true := by
    decide +kernel
  have hlower : word.toLower.toList = word.toList.map Char.toLower := by
    rw [String.toLower, String.toList_map]
  rw [hlower]
  apply List.map_congr_left
  intro c hc
  apply foldCase_of_isNameRest_toLower
  apply List.all_eq_true.mp (hletters _ h)
  rw [hlower]
  exact List.mem_map_of_mem hc

/-- What is spelled for a tag is taken by the rule of the tag, up to the next gap. -/
theorem exists_match (h : Spelled tag word) (hp : p.Passes word.toList q) (hq : q.AtGap) :
    ∃ rule ∈ rules, rule.effect = .tagged tag ∧ rule.pattern.match? p = some q := by
  cases h with
  | keyword known =>
    have hfold : word.toList.map foldCase = word.toLower.toList.map foldCase :=
      (map_foldCase_of_keyword known).trans (keyword_lower _ known).2
    exact ⟨_, mem_rules_of_keyword known, rfl, run_anyCaseText hfold hp⟩
  | sign known => exact ⟨_, mem_rules_of_sign known, rfl, run_of_passes hp⟩
  | whole digits =>
    exact ⟨.tagged .number number, by simp [rules], rfl, match_whole digits hp hq⟩
  | fraction split digits more =>
    rw [split] at hp
    exact ⟨.tagged .number number, by simp [rules], rfl, match_fraction digits more hp hq⟩
  | name shape free =>
    have hrest : ∀ c ∈ q.after.head?, isNameRest c = false :=
      refused_of_atGap hq (by decide +kernel)
    exact ⟨.tagged .identifier name, by simp [rules], rfl, run_name shape hp hrest rfl⟩
  | visit split shape shapes =>
    rw [split] at hp
    exact ⟨.tagged .visit visit, by simp [rules], rfl, match_visit shape shapes hp hq⟩

theorem Spelled.unbroken (h : Spelled tag word) : Text.Unbroken word.toList := by
  have hp : (Place.start word.toList).Passes word.toList (Place.start word.toList).last :=
    .last _
  obtain ⟨rule, hrule, heffect, hm⟩ := exists_match h hp (by simp [Place.AtGap, Place.last])
  rcases spaced.match_cases hrule hm with ⟨-, hunbroken⟩ | ⟨rfl, -⟩
  · rwa [hp.upTo_eq] at hunbroken
  · cases heffect

end Matching

section Tagging

/-- The tag of a word by its first character, and where this leaves a choice by the whole
word. -/
def tagOf? : List Char → Option LogicTag
  | [] => none
  | c :: cs =>
    if isNameStart c then
      some
        (((keywords.find? fun keyword => keyword.2.toList == (c :: cs).map foldCase).map
          (·.1)).getD .identifier)
    else if isDigit c then some .number
    else if c == '@' then some .visit
    else (signs.find? fun sign => sign.2.toList == c :: cs).map (·.1)

theorem tagOf?_sign : ∀ sign ∈ signs, tagOf? sign.2.toList = some sign.1 := by decide +kernel

theorem tagOf?_visit (rest : List Char) : tagOf? ('@' :: rest) = some .visit := rfl

theorem tagOf?_digits (h : IsDigits text) (rest : List Char) :
    tagOf? (text ++ rest) = some .number := by
  obtain ⟨hne, hdigits⟩ := h
  obtain ⟨c, cs, rfl⟩ := List.exists_cons_of_ne_nil hne
  have hc : isDigit c = true := hdigits c List.mem_cons_self
  have hstart : isNameStart c = false := by
    simp [isDigit, isNameStart, Char.le_def, UInt32.le_iff_toNat_le] at hc ⊢
    refine ⟨⟨by omega, by omega⟩, ?_⟩
    rintro rfl
    simp at hc
  simp [tagOf?, hc, hstart]

theorem tagOf?_name (h : IsName word.toList) (hfree : ¬ IsKeyword word) :
    tagOf? word.toList = some .identifier := by
  obtain ⟨c, rest, hword, hc, hrest⟩ := h
  have hletters : ∀ d ∈ word.toList, isNameRest d = true := by
    rw [hword]
    exact List.forall_mem_cons.mpr ⟨by simp [isNameRest, hc], hrest⟩
  have hfold : word.toList.map foldCase = word.toLower.toList := by
    rw [String.toLower, String.toList_map]
    exact List.map_congr_left fun d hd => foldCase_eq_toLower (hletters d hd)
  have hnone :
      keywords.find? (fun keyword => keyword.2.toList == word.toList.map foldCase) = none := by
    rw [List.find?_eq_none]
    intro keyword hmem heq
    apply hfree
    apply Exists.intro keyword
    apply And.intro hmem
    rw [← String.toList_inj, ← hfold]
    exact (beq_iff_eq.mp heq).symm
  rw [hword] at hnone ⊢
  simp only [tagOf?, hc, hnone, if_true]
  rfl

theorem isNameStart_of_foldCase {c : Char} (h : isNameStart (foldCase c) = true)
    (hs : foldCase c ≠ 's') (hk : foldCase c ≠ 'k') : isNameStart c = true := by
  have hlong : c.toNat ≠ 0x17F := fun heq => hs (by simp [foldCase, heq])
  have hkelvin : c.toNat ≠ 0x212A := fun heq => hk (by simp [foldCase, heq])
  have hlower : foldCase c = c.toLower := by simp [foldCase, hlong, hkelvin]
  rw [hlower] at h
  by_cases hupper : c.isUpper = true
  · simp [Char.isUpper, UInt32.le_iff_toNat_le] at hupper
    simp [isNameStart, Char.le_def, UInt32.le_iff_toNat_le]
    omega
  · rwa [Char.toLower_eq_of_not_isUpper hupper] at h

theorem tagOf?_keyword {keyword : LogicTag × String} (h : keyword ∈ keywords)
    (hfold : text.map foldCase = keyword.2.toList) : tagOf? text = some keyword.1 := by
  -- No keyword begins with one of the two letters that a character outside ASCII is read as.
  have hheads : ∀ keyword ∈ keywords,
      keyword.2.toList.head?.any (fun d => isNameStart d && d != 's' && d != 'k') = true := by
        decide +kernel
  have hfind : ∀ keyword ∈ keywords,
      keywords.find? (fun other => other.2.toList == keyword.2.toList) = some keyword := by
        decide +kernel
  have hhead := hheads keyword h
  cases text with
  | nil =>
    rw [← hfold] at hhead
    cases hhead
  | cons c cs =>
    simp only [← hfold, List.map_cons, List.head?_cons, Option.any_some, Bool.and_eq_true,
      bne_iff_ne] at hhead
    obtain ⟨⟨hstart, hs⟩, hk⟩ := hhead
    simp only [tagOf?, isNameStart_of_foldCase hstart hs hk, hfold, hfind keyword h, if_true]
    rfl

theorem tagOf?_of_spelled (h : Spelled tag word) : tagOf? word.toList = some tag := by
  cases h with
  | keyword known => exact tagOf?_keyword known (map_foldCase_of_keyword known)
  | sign known => exact tagOf?_sign _ known
  | whole digits =>
    have htag := tagOf?_digits digits []
    rwa [List.append_nil] at htag
  | fraction split digits more =>
    rw [split]
    exact tagOf?_digits digits _
  | name shape free => exact tagOf?_name shape free
  | visit split shape shapes =>
    rw [split]
    exact tagOf?_visit _

theorem Spelled.tag_unique {tag' : LogicTag} (h : Spelled tag word) (h' : Spelled tag' word) :
    tag = tag' :=
  Option.some.inj ((tagOf?_of_spelled h).symm.trans (tagOf?_of_spelled h'))

theorem takes_anyCaseText {cs : List Char} (h : (anyCaseText cs).Takes text) :
    text.map foldCase = cs.map foldCase := by
  fun_induction anyCaseText cs generalizing text with
  | case1 =>
    cases h
    rfl
  | case2 c =>
    obtain ⟨d, hd, rfl⟩ := h
    simpa using hd
  | case3 c cs _ ih =>
    obtain ⟨_, rest, ⟨d, hd, rfl⟩, hrest, rfl⟩ := h
    rw [List.singleton_append, List.map_cons, List.map_cons, ih hrest, beq_iff_eq.mp hd]

/-- The rule that wins has the tag of the word that it takes. -/
theorem tagOf?_of_wins {rule : Rule LogicTag} (h : Table.Wins rules p rule q)
    (htext : Text.Unbroken (p.upTo q)) :
    ∃ tag, rule.effect = .tagged tag ∧ tagOf? (p.upTo q) = some tag := by
  have htakes := takes_of_match h.1
  rcases rule_cases h.mem with ⟨keyword, hmem, rfl⟩ | ⟨sign, hmem, rfl⟩ | hrule | rfl
  · apply Exists.intro keyword.1
    apply And.intro rfl
    exact tagOf?_keyword hmem
      ((takes_anyCaseText htakes).trans (keyword_lower keyword hmem).2.symm)
  · apply Exists.intro sign.1
    apply And.intro rfl
    rw [upTo_of_match_lit h.1]
    exact tagOf?_sign sign hmem
  · simp only [List.mem_cons, List.not_mem_nil, or_false] at hrule
    rcases hrule with rfl | rfl | rfl
    · obtain ⟨whole, rest, hwhole, -, hsplit⟩ := htakes
      apply Exists.intro LogicTag.number
      apply And.intro rfl
      rw [hsplit]
      exact tagOf?_digits (isDigit_of_takes hwhole) rest
    · have hname : IsName (String.ofList (p.upTo q)).toList := by
        rw [String.toList_ofList]
        exact isNameStart_of_takes htakes
      have htag := tagOf?_name hname (not_isKeyword_of_wins h rfl)
      rw [String.toList_ofList] at htag
      exact ⟨_, rfl, htag⟩
    · obtain ⟨_, rest, ⟨c, hc, rfl⟩, -, hsplit⟩ := htakes
      cases beq_iff_eq.mp hc
      rw [hsplit]
      exact ⟨_, rfl, tagOf?_visit rest⟩
  · cases (match_blankRun_atInk (h.passes.atInk htext)).symm.trans h.1

end Tagging

theorem exists_wins_spelled (h : Spelled tag word) (hp : p.Passes word.toList q)
    (hq : q.AtGap) : ∃ rule, rule.effect = .tagged tag ∧ Table.Wins rules p rule q := by
  obtain ⟨rule, hrule, -, hm⟩ := exists_match h hp hq
  obtain ⟨winner, hwins⟩ := spaced.exists_wins_word h.unbroken hp hq hrule hm
  have hunbroken : Text.Unbroken (p.upTo q) := by
    rw [hp.upTo_eq]
    exact h.unbroken
  obtain ⟨tag', heffect, htag⟩ := tagOf?_of_wins hwins hunbroken
  rw [hp.upTo_eq, tagOf?_of_spelled h] at htag
  cases htag
  exact ⟨winner, heffect, hwins⟩

structure Word where
  tag : LogicTag
  text : String
  spelled : Spelled tag text

/-- Blanks between two words. -/
structure Gap where
  text : String
  run : Text.BlankRun text.toList

variable (gap : Nat → Gap)

/-- Words in writing, from the one with the given number on, with a gap between each two. -/
def write : Nat → List Word → String
  | _, [] => ""
  | _, [w] => w.text
  | i, w :: v :: rest => w.text ++ ((gap i).text ++ write (i + 1) (v :: rest))

/-- The tokens of words in writing from an offset on. -/
def tokensOf : Nat → Nat → List Word → List (Token LogicTag)
  | _, _, [] => []
  | i, offset, w :: rest =>
    ⟨some w.tag, offset, w.text⟩ ::
      tokensOf (i + 1) (offset + w.text.utf8ByteSize + (gap i).text.utf8ByteSize) rest

variable {gap} {cap budget offset i : Nat} {lenient : Bool} {out : Array (Token LogicTag)}

theorem scanFrom_word (w : Word) (hp : p.Passes w.text.toList q) (hq : q.AtGap) :
    (table cap).scanner.scanFrom lenient (budget + 1) offset p out =
      (table cap).scanner.scanFrom lenient budget (offset + w.text.utf8ByteSize) q
        (out.push ⟨some w.tag, offset, w.text⟩) := by
  obtain ⟨rule, heffect, hwins⟩ := exists_wins_spelled w.spelled hp hq
  have hleft : p.left ≠ 0 := by
    have hlt := hp.left_lt_iff.mpr w.spelled.unbroken.filled
    omega
  rw [Table.scanFrom_of_wins hleft hwins, heffect, hp.upTo_eq, Stretch.bytes,
    String.ofList_toList]
  simp [Stretch.token?]

theorem scanFrom_gap (g : Gap) (hp : p.Passes g.text.toList q) (hq : q.AtInk) :
    (table cap).scanner.scanFrom lenient (budget + 1) offset p out =
      (table cap).scanner.scanFrom lenient budget (offset + g.text.utf8ByteSize) q out := by
  have hwins : Table.Wins (table cap).rules p (.discarded .blankRun) q :=
    spaced.wins_run g.run hp hq
  have hleft : p.left ≠ 0 := by
    have hlt := hp.left_lt_iff.mpr g.run.filled
    omega
  rw [Table.scanFrom_of_wins hleft hwins, hp.upTo_eq, Stretch.bytes, String.ofList_toList]
  simp [Stretch.token?, Rule.discarded]

theorem atInk_of_write {w : Word} {rest : List Word}
    (hp : p.after = (write gap i (w :: rest)).toList) : p.AtInk := by
  have hfirst : ∃ more, p.after = w.text.toList ++ more := by
    cases rest with
    | nil => exact ⟨[], by rw [hp, write, List.append_nil]⟩
    | cons v rest => exact ⟨_, by rw [hp, write, String.toList_append]⟩
  obtain ⟨more, hmore⟩ := hfirst
  obtain ⟨q, hq, -⟩ := Place.exists_passes hmore
  exact hq.atInk w.spelled.unbroken

theorem scanFrom_written (words : List Word) (hp : p.after = (write gap i words).toList)
    (hbudget : 2 * words.length ≤ budget + 1) :
    (table cap).scanner.scanFrom lenient budget offset p out =
      .ok (out ++ tokensOf gap i offset words) := by
  fun_induction write gap i words generalizing p offset budget out with
  | case1 =>
    have hleft : p.left = 0 := by
      rw [p.left_eq, hp]
      rfl
    rw [Scanner.scanFrom_end hleft]
    simp [tokensOf]
  | case2 i w =>
    obtain ⟨budget, rfl⟩ : ∃ b, budget = b + 1 := ⟨budget - 1, by simp at hbudget; omega⟩
    rw [← List.append_nil w.text.toList] at hp
    obtain ⟨q, hq, hend⟩ := Place.exists_passes hp
    have hgap : q.AtGap := by
      intro c hc
      rw [hend] at hc
      cases hc
    have hleft : q.left = 0 := by
      rw [q.left_eq, hend]
      rfl
    rw [scanFrom_word w hq hgap, Scanner.scanFrom_end hleft]
    simp [tokensOf]
  | case3 i w v rest ih =>
    obtain ⟨budget, rfl⟩ : ∃ b, budget = b + 2 := ⟨budget - 2, by simp at hbudget; omega⟩
    rw [String.toList_append] at hp
    obtain ⟨q, hq, hrest⟩ := Place.exists_passes hp
    rw [String.toList_append] at hrest
    obtain ⟨r, hr, hmore⟩ := Place.exists_passes hrest
    have hgap : q.AtGap := by
      intro c hc
      obtain ⟨d, hd, hhead⟩ := hr.head_mem (gap i).run.filled
      cases hhead.symm.trans hc
      exact (gap i).run.blank c hd
    rw [scanFrom_word w hq hgap, scanFrom_gap (gap i) hr (atInk_of_write hmore),
      ih hmore (by simp at hbudget ⊢; omega)]
    apply congrArg Except.ok
    rw [← Array.toList_inj]
    simp [tokensOf]

/-- Scanning undoes writing. Words with blanks between them are given back in order, each with
its tag and the offset where it stands, by a scan with a step for each word and each gap. The
tag of a word that is shaped like a name is that of a keyword just when the word is the keyword
in some letter case, and that of names if it is no keyword. -/
theorem scan_written (words : List Word) (gap : Nat → Gap) (lenient : Bool) (cap : Nat)
    (hcap : 2 * words.length ≤ cap + 1) :
    (table cap).scan lenient (write gap 0 words) = .ok (tokensOf gap 0 0 words) ∧
      ∀ w ∈ words, IsName w.text.toList →
        (∀ keyword ∈ keywords, w.tag = keyword.1 ↔ w.text.toLower = keyword.2) ∧
          (¬ IsKeyword w.text → w.tag = .identifier) := by
  constructor
  · have hscan : (table cap).scanner.scanFrom lenient (table cap).scanner.maxSteps 0
        (.start (write gap 0 words).toList) #[] = .ok (#[] ++ tokensOf gap 0 0 words) :=
          scanFrom_written words rfl hcap
    rw [Table.scan, Scanner.scan, hscan]
    simp [Except.map]
  · intro w _ hname
    have hfree (hw : ¬ IsKeyword w.text) : w.tag = .identifier :=
      w.spelled.tag_unique (.name hname hw)
    have htag {keyword : LogicTag × String} (hmem : keyword ∈ keywords)
        (hlower : w.text.toLower = keyword.2) :
        w.tag = keyword.1 := by
      apply w.spelled.tag_unique
      apply Spelled.keyword
      rw [hlower]
      exact hmem
    refine ⟨fun keyword hmem => ⟨?_, htag hmem⟩, hfree⟩
    intro heq
    by_cases hw : IsKeyword w.text
    · obtain ⟨other, hother, hlower⟩ := hw
      have hdistinct : ∀ a ∈ keywords, ∀ b ∈ keywords, a.1 = b.1 → a.2 = b.2 := by
        decide +kernel
      rw [hlower]
      exact hdistinct other hother keyword hmem ((htag hother hlower).symm.trans heq)
    · exact absurd (heq.symm.trans (hfree hw)) (keyword_lower keyword hmem).1

def sampleName : Word :=
  ⟨.identifier, "android",
    .name ⟨'a', "ndroid".toList, rfl, rfl, List.all_eq_true.mp rfl⟩ (by decide +kernel)⟩

/-- A keyword in mixed case, a name that begins with it, a sign, a number and a visit. -/
def sampleWords : List Word :=
  have hnumber : "12.5".toList = ['1', '2'] ++ '.' :: ['5'] := rfl
  have hvisit :
      "@cellar.b1".toList = '@' :: ("cellar".toList ++ [['b', '1']].flatMap ('.' :: ·)) := rfl
  [⟨.and, "aNd", .keyword (by decide +kernel)⟩,
   sampleName,
   ⟨.lessEquals, "<=", .sign (by decide +kernel)⟩,
   ⟨.number, "12.5",
     .fraction hnumber ⟨by simp, List.all_eq_true.mp rfl⟩ ⟨by simp, List.all_eq_true.mp rfl⟩⟩,
   ⟨.visit, "@cellar.b1", .visit hvisit ⟨'c', "ellar".toList, rfl, rfl, List.all_eq_true.mp rfl⟩
      (List.forall_mem_singleton.mpr ⟨'b', ['1'], rfl, rfl, List.all_eq_true.mp rfl⟩)⟩]

def sampleGap : Gap := ⟨"\n\u2003", ⟨by simp, List.all_eq_true.mp rfl⟩⟩

theorem sampleWords_scanned :
    write (fun _ => sampleGap) 0 sampleWords =
        "aNd\n\u2003android\n\u2003<=\n\u200312.5\n\u2003@cellar.b1" ∧
      2 * sampleWords.length ≤ 9 + 1 ∧
      (table 9).scan false (write (fun _ => sampleGap) 0 sampleWords) = .ok
        [⟨some .and, 0, "aNd"⟩, ⟨some .identifier, 7, "android"⟩, ⟨some .lessEquals, 18, "<="⟩,
         ⟨some .number, 24, "12.5"⟩, ⟨some .visit, 32, "@cellar.b1"⟩] ∧
      sampleName ∈ sampleWords ∧ IsName sampleName.text.toList ∧ ¬ IsKeyword sampleName.text ∧
      (sampleName.tag = .and ↔ sampleName.text.toLower = "and") ∧
        sampleName.tag = .identifier := by
  have hcap : 2 * sampleWords.length ≤ 9 + 1 := by decide
  have hmem : sampleName ∈ sampleWords := by simp [sampleWords]
  have hname : IsName sampleName.text.toList :=
    ⟨'a', "ndroid".toList, rfl, rfl, List.all_eq_true.mp rfl⟩
  have hfree : ¬ IsKeyword sampleName.text := by decide +kernel
  obtain ⟨hscan, htags⟩ := scan_written sampleWords (fun _ => sampleGap) false 9 hcap
  obtain ⟨hkeywords, hidentifier⟩ := htags sampleName hmem hname
  exact ⟨by decide +kernel, hcap, hscan, hmem, hname, hfree,
    hkeywords (.and, "and") (by decide), hidentifier hfree⟩

end Fabula.Lexicon
