import Mathlib
import Fabula.Compiler
import Fabula.Proofs.Scan.Boundaries

namespace Fabula

namespace Feature

variable {collect : Bool} {cap : Nat} {rule : Rule Feature} {p q : Place} {c : Char}
  {s rest : List Char}
  {front stretches : List (Stretch Feature)}

theorem script_marker (hrule : rule ∈ (table collect cap).rules)
    (hmatch : rule.pattern.match? p = some q) :
    (rule.effect = .tagged rawOpen ∧ p.upTo q = ['\x7b', '!']) ∨
      (rule.effect = .tagged rawClose ∧ p.upTo q = ['!', '\x7d']) ∨
      rule.effect ≠ .tagged rawClose ∧ '!' ∉ p.upTo q ∧ '\x7b' ∉ p.upTo q := by
  have hall : ∀ rule ∈ inlineRules ++ paragraphRules,
      (rule.effect = .tagged rawOpen ∧ rule.pattern = .lit "\x7b!") ∨
        (rule.effect = .tagged rawClose ∧ rule.pattern = .lit "!\x7d") ∨
        rule.effect ≠ .tagged rawClose ∧ rule.pattern.avoids '!' = true ∧
          rule.pattern.avoids '\x7b' = true := by
    simp [inlineRules, paragraphRules, Rule.tagged]
    decide
  rcases hall rule (mem_rules hrule) with
      ⟨heffect, hlit⟩ | ⟨heffect, hlit⟩ | ⟨heffect, hmark, hbrace⟩
  · rw [hlit] at hmatch
    exact .inl ⟨heffect, Pattern.upTo_of_match_lit hmatch⟩
  · rw [hlit] at hmatch
    exact .inr (.inl ⟨heffect, Pattern.upTo_of_match_lit hmatch⟩)
  · exact .inr
      (.inr ⟨heffect, Pattern.not_mem_upTo hmark hmatch, Pattern.not_mem_upTo hbrace hmatch⟩)

theorem script_marker_of_head (hrule : rule ∈ (table collect cap).rules)
    (hmatch : rule.pattern.match? p = some q) (hp : p.after = c :: rest)
    (hc : c = '!' ∨ c = '\x7b') :
    (rule.effect = .tagged rawOpen ∧ p.upTo q = ['\x7b', '!']) ∨
      rule.effect = .tagged rawClose ∧ p.upTo q = ['!', '\x7d'] := by
  rcases script_marker hrule hmatch with hopen | hclose | ⟨-, hmark, hbrace⟩
  · exact .inl hopen
  · exact .inr hclose
  · obtain ⟨text, hpasses⟩ := Pattern.passes_of_match hmatch
    rw [hpasses.upTo_eq] at hmark hbrace
    have hafter := hpasses.after
    cases text with
    | nil =>
      cases hpasses.unique (.refl p)
      exact absurd hmatch (match_ne collect cap rule hrule p)
    | cons d text =>
      rw [hp] at hafter
      obtain ⟨rfl, -⟩ := List.cons.inj hafter
      rcases hc with rfl | rfl
      · exact absurd List.mem_cons_self hmark
      · exact absurd List.mem_cons_self hbrace

theorem rawOpen_mem : .tagged rawOpen (.lit "\x7b!") ∈ (table collect cap).rules := by
  cases collect <;> simp [table, inlineRules]

theorem rawClose_mem : .tagged rawClose (.lit "!\x7d") ∈ (table collect cap).rules := by
  cases collect <;> simp [table, inlineRules]

section Tiling

variable {whole : List Char}

theorem rawOpen_of_after (h : Finder.Tiling (table collect cap).finders whole p stretches)
    (hp : p.after = '\x7b' :: '!' :: rest) :
    ∃ stop later, stretches = .claimed (.tagged rawOpen) ['\x7b', '!'] :: later ∧
      p.Passes ['\x7b', '!'] stop ∧ stop.after = rest ∧
      Finder.Tiling (table collect cap).finders whole stop later := by
  have hmatch : ¬ Table.Silent (table collect cap).rules p :=
    Table.not_silent_of_lit rawOpen_mem rfl hp
  obtain ⟨rule, stop, later, hwins, rfl, hlater⟩ :=
    Table.claimed_of_match h (Place.left_ne_zero hp) hmatch
  have hpasses := hwins.passes
  have hafter := hpasses.after
  rcases script_marker_of_head hwins.mem hwins.1 hp (.inr rfl) with
      ⟨heffect, htext⟩ | ⟨-, htext⟩
  · rw [htext, hp] at hafter
    rw [htext] at hpasses
    exact ⟨stop, later, by rw [heffect, htext], hpasses, by simpa using hafter.symm, hlater⟩
  · rw [htext, hp] at hafter
    simp at hafter

theorem rawClose_of_after (h : Finder.Tiling (table collect cap).finders whole p stretches)
    (hp : p.after = ['!', '\x7d']) :
    stretches = [.claimed (.tagged rawClose) ['!', '\x7d']] := by
  have hmatch : ¬ Table.Silent (table collect cap).rules p :=
    Table.not_silent_of_lit rawClose_mem rfl (hp.trans (List.append_nil _).symm)
  obtain ⟨rule, stop, later, hwins, rfl, hlater⟩ :=
    Table.claimed_of_match h (Place.left_ne_zero hp) hmatch
  have hafter := hwins.passes.after
  rcases script_marker_of_head hwins.mem hwins.1 hp (.inl rfl) with
      ⟨-, htext⟩ | ⟨heffect, htext⟩
  · rw [htext, hp] at hafter
    simp at hafter
  · rw [htext, hp] at hafter
    have hstop : stop.left = 0 := by
      rw [stop.left_eq]
      simpa using hafter
    rw [hlater.eq_nil hstop, heffect, htext]

theorem tag_ne_rawClose (h : Finder.Tiling (table collect cap).finders whole p stretches)
    (hfront : front ⊆ stretches) (hclosed : ¬ ['!', '\x7d'] <:+: Stretch.textOf front)
    (offset : Nat) : ∀ t ∈ Stretch.tokensFrom offset front, t.tag ≠ some rawClose := by
  intro t ht htag
  obtain ⟨p, f, start, stop, heffect, hleads, htext⟩ :=
    h.leads_of_mem (hfront (Stretch.claimed_of_mem ht htag))
  obtain ⟨rule, hrule, -, hwins⟩ := Table.wins_of_leads hleads
  rw [← hrule] at heffect
  obtain ⟨before, after, hslice, -⟩ := Stretch.slice_of_mem ht
  rcases script_marker hwins.mem hwins.1 with ⟨heffect', -⟩ | ⟨-, hspelled⟩ | ⟨hne, -⟩
  · cases heffect.symm.trans heffect'
  · exact hclosed ⟨before, after, by rw [hslice, htext, hspelled]⟩
  · exact hne heffect

theorem join_tokens (h : Finder.Tiling (table collect cap).finders whole p stretches)
    (hfront : front ⊆ stretches) (offset : Nat) :
    String.join ((Stretch.tokensFrom offset front).map Token.text) =
      String.ofList (Stretch.textOf front) := by
  have hkept : ∀ rule ∈ inlineRules ++ paragraphRules, rule.effect ≠ .discarded := by
    simp [inlineRules, paragraphRules, Rule.tagged]
  apply Stretch.join_tokensFrom
  intro text hmem
  obtain ⟨p, f, start, stop, heffect, hleads, -⟩ := h.leads_of_mem (hfront hmem)
  obtain ⟨rule, hrule, -, hwins⟩ := Table.wins_of_leads hleads
  exact hkept rule (mem_rules hwins.mem) (hrule.trans heffect)

end Tiling

/-- No marker in a script reaches into the closer behind it, unless the script ends with an
opening brace. -/
theorem bounded_script (hpasses : p.Passes s q) (hq : q.after = ['!', '\x7d'])
    (hlast : s.getLast? ≠ some '\x7b') : Table.Bounded (table collect cap).rules p s := by
  apply Table.bounded_of_head hpasses hq
  intro before t m rule stop more hs hne hwins htext
  obtain ⟨d, t, rfl⟩ := List.exists_cons_of_ne_nil hne
  rcases script_marker hwins.mem hwins.1 with ⟨-, hspelled⟩ | ⟨-, hspelled⟩ | ⟨-, hmark, -⟩
  · rw [hspelled] at htext
    obtain ⟨rfl, hmore⟩ := List.cons.inj htext
    rcases List.append_eq_singleton_iff.mp hmore.symm with ⟨rfl, -⟩ | ⟨-, hnil⟩
    · exact hlast (by rw [hs, List.getLast?_concat])
    · cases hnil
  · rw [hspelled] at htext
    obtain ⟨-, hmore⟩ := List.cons.inj htext
    rcases List.append_eq_singleton_iff.mp hmore.symm with ⟨-, hhead⟩ | ⟨-, hnil⟩
    · simp at hhead
    · cases hnil
  · exact hmark (by simp [htext])

theorem bounded_brace (hpasses : p.Passes s q) (hq : q.after = '\x7b' :: rest) :
    Table.Bounded (table collect cap).rules p s := by
  apply Table.bounded_of_head hpasses hq
  intro before t m rule stop more hs hne hwins htext
  obtain ⟨d, t, rfl⟩ := List.exists_cons_of_ne_nil hne
  have hmem : '\x7b' ∈ t ++ '\x7b' :: more := by simp
  rcases script_marker hwins.mem hwins.1 with ⟨-, hspelled⟩ | ⟨-, hspelled⟩ | ⟨-, -, hbrace⟩
  · rw [hspelled, List.cons_append] at htext
    rw [← (List.cons.inj htext).2] at hmem
    simp at hmem
  · rw [hspelled, List.cons_append] at htext
    rw [← (List.cons.inj htext).2] at hmem
    simp at hmem
  · exact hbrace (by simp [htext])

section Tokens

variable {source : String} {tokens : List (Token Feature)}

/-- The markers of a script: its opener, others that are not the closer and hold the script, and
its closer. -/
theorem tokens_of_script (h : (table collect cap).scan true source = .ok tokens)
    (hsource : source.toList = '\x7b' :: '!' :: (s ++ ['!', '\x7d']))
    (hclosed : ¬ ['!', '\x7d'] <:+: s) (hlast : s.getLast? ≠ some '\x7b') :
    ∃ middle offset,
      tokens = ⟨some rawOpen, 0, "\x7b!"⟩ :: (middle ++ [⟨some rawClose, offset, "!\x7d"⟩]) ∧
      (∀ t ∈ middle, t.tag ≠ some rawClose) ∧
        String.join (middle.map Token.text) = String.ofList s := by
  obtain ⟨stretches, htiling, -, rfl⟩ := Table.tiling_of_scan h
  obtain ⟨p, later, rfl, -, hp, hlater⟩ := rawOpen_of_after htiling hsource
  obtain ⟨q, hpasses, hq⟩ := Place.exists_passes hp
  have hmatch : ¬ Table.Silent (table collect cap).rules q :=
    Table.not_silent_of_lit rawClose_mem rfl (hq.trans (List.append_nil _).symm)
  obtain ⟨front, back, rfl, hfront, hback⟩ :=
    Table.split_at hlater hpasses (Place.left_ne_zero hq) hmatch
      (bounded_script hpasses hq hlast)
  rw [rawClose_of_after hback hq] at hlater ⊢
  have hsub := List.subset_append_left front [.claimed (.tagged rawClose) ['!', '\x7d']]
  refine ⟨Stretch.tokensFrom 2 front, 2 + Stretch.bytes (Stretch.textOf front), ?_, ?_, ?_⟩
  · rw [Stretch.tokensFrom, Stretch.tokensFrom_append]
    rfl
  · apply tag_ne_rawClose hlater hsub
    rwa [hfront]
  · rw [join_tokens hlater hsub, hfront]

theorem tokens_of_brace (h : (table collect cap).scan true source = .ok tokens)
    (hsource : source.toList = '\x7b' :: '!' :: (s ++ ['\x7b', '!', '\x7d']))
    (hclosed : ¬ ['!', '\x7d'] <:+: s) :
    ∃ middle, tokens = ⟨some rawOpen, 0, "\x7b!"⟩ :: middle ∧
      ∀ t ∈ middle, t.tag ≠ some rawClose := by
  obtain ⟨stretches, htiling, -, rfl⟩ := Table.tiling_of_scan h
  obtain ⟨p, later, rfl, hopen, hp, hlater⟩ := rawOpen_of_after htiling hsource
  obtain ⟨q, hpasses, hq⟩ := Place.exists_passes hp
  have hmatch : ¬ Table.Silent (table collect cap).rules q :=
    Table.not_silent_of_lit rawOpen_mem rfl hq
  obtain ⟨front, back, rfl, hfront, hback⟩ :=
    Table.split_at hlater hpasses (Place.left_ne_zero hq) hmatch (bounded_brace hpasses hq)
  obtain ⟨stop, last, rfl, hreopen, hstop, hend⟩ := rawOpen_of_after hback hq
  have hin : stop.In source.toList := ⟨_, (hopen.trans hpasses).trans hreopen⟩
  refine ⟨Stretch.tokensFrom 2 (front ++ .claimed (.tagged rawOpen) ['\x7b', '!'] :: last), rfl,
    ?_⟩
  rw [Stretch.tokensFrom_append, Stretch.tokensFrom]
  intro t ht
  rcases List.mem_append.mp ht with ht | ht
  · refine tag_ne_rawClose hlater (List.subset_append_left _ _) ?_ _ t ht
    rwa [hfront]
  · rcases List.mem_append.mp ht with ht | ht
    · rw [List.mem_singleton.mp ht]
      simp
    · refine tag_ne_rawClose hend (List.Subset.refl _) ?_ _ t ht
      rw [hend.textOf_eq (Table.lawful_finders _) hin, hstop]
      decide

end Tokens

end Feature

section Resolving

variable {tokens middle : List (Token Feature)} {texts : List String} {s : String}
  {offset maxDepth : Nat}

def Resolver.inScript : Resolver := ⟨[], [⟨.rawScript, 0, false⟩], .paragraph⟩

theorem Resolver.step_inScript {t : Token Feature} (ht : t.tag ≠ some .rawClose) :
    inScript.step t = .ok (inScript, [.text t.text]) := by
  unfold step
  split
  · rfl
  · rename_i feature htag
    have hne : feature ≠ .rawClose := by
      rintro rfl
      exact ht htag
    rw [if_pos (by rfl), if_neg hne]
    rfl

theorem Resolver.steps_inScript (h : ∀ t ∈ middle, t.tag ≠ some .rawClose) (out : Array Event) :
    inScript.steps out (middle ++ tokens) =
      inScript.steps (out ++ middle.map fun t => Event.text t.text) tokens := by
  induction middle generalizing out with
  | nil => simp
  | cons t middle ih =>
    obtain ⟨ht, hmiddle⟩ := List.forall_mem_cons.mp h
    rw [List.cons_append, steps, step_inScript ht]
    dsimp only
    rw [ih hmiddle]
    simp

theorem Event.coalesce_texts (hne : texts ≠ []) (kind : SpanKind) (rest : List Event) :
    coalesce (texts.map Event.text ++ .stop kind :: rest) =
      .text (String.join texts) :: .stop kind :: coalesce rest := by
  induction texts with
  | nil => exact absurd rfl hne
  | cons s texts ih =>
    cases texts with
    | nil => simp [coalesce]
    | cons t texts =>
      rw [List.map_cons, List.cons_append, coalesce, ih (List.cons_ne_nil _ _)]
      simp

theorem Resolver.steps_opened (out : Array Event) :
    initial.steps out (⟨some .rawOpen, 0, "\x7b!"⟩ :: tokens) =
      inScript.steps (out ++ [Event.start .rawScript]) tokens := by
  have hstep : initial.step ⟨some .rawOpen, 0, "\x7b!"⟩ = .ok (inScript, [.start .rawScript]) :=
    rfl
  rw [steps, hstep]

theorem Event.ofTokens_script (h : ∀ t ∈ middle, t.tag ≠ some .rawClose)
    (hjoin : String.join (middle.map Token.text) = s) (hs : s ≠ "") :
    Event.ofTokens
        (⟨some .rawOpen, 0, "\x7b!"⟩ :: (middle ++ [⟨some .rawClose, offset, "!\x7d"⟩])) =
      .ok [.start .paragraph, .start .rawScript, .text s, .stop .rawScript,
        .stop .paragraph] := by
  have hne : middle.map Token.text ≠ [] := by
    intro hnil
    rw [hnil] at hjoin
    exact hs hjoin.symm
  have hcoalesce := coalesce_texts hne .rawScript [.stop .paragraph]
  rw [hjoin, List.map_map] at hcoalesce
  unfold ofTokens
  rw [Resolver.steps_opened, Resolver.steps_inScript h]
  apply congrArg Except.ok
  simpa [coalesce, Resolver.initial, Resolver.inScript, Function.comp_def] using hcoalesce

theorem Event.ofTokens_unclosed (h : ∀ t ∈ middle, t.tag ≠ some .rawClose) :
    Event.ofTokens (⟨some .rawOpen, 0, "\x7b!"⟩ :: middle) =
      .error (.unclosed .rawScript 0) := by
  unfold ofTokens
  rw [Resolver.steps_opened, ← List.append_nil middle, Resolver.steps_inScript h]
  rfl

theorem Range.ofEvents_script (hdepth : 2 ≤ maxDepth) :
    Range.ofEvents maxDepth
        [.start .paragraph, .start .rawScript, .text s, .stop .rawScript, .stop .paragraph] =
      .ok (.node .document [.node .paragraph [.node .rawScript [.text s]]]) := by
  obtain ⟨n, rfl⟩ := Nat.exists_eq_add_of_le' hdepth
  rfl

theorem Range.tidy_script (hs : Text.isBlankText s = false) :
    (node .document [node .paragraph [node .rawScript [text s]]]).tidy =
      some (node .document [node .paragraph [node .rawScript [text s]]]) := by
  simp [tidy, tidyAll, plainText, SpanKind.isSingle, hs, consJoined, tidyTexts, collapseTexts,
    trimBeforeBreaks, trimFirst, trimLast, isEmptyText, SpanKind.isParagraphLike]

end Resolving

namespace Content

variable {s source : String} {collect : Bool} {tokens : List (Token Feature)}
  {dialect : Dialect Category}
  {maxSteps maxDepth : Nat}

theorem compile_of_unclosed
    (hscan : (Feature.table collect maxSteps).scan true source = .ok tokens)
    (hevents : Event.ofTokens tokens = .error (.unclosed .rawScript 0)) :
    compile dialect maxSteps maxDepth source collect =
      .error (.markup (.unclosed .rawScript 0)) := by
  simp [compile, hscan, hevents, Except.mapError, bind, Except.bind]

theorem compile_of_script
    (hscan : (Feature.table collect maxSteps).scan true source = .ok tokens)
    (hevents : Event.ofTokens tokens =
      .ok [.start .paragraph, .start .rawScript, .text s, .stop .rawScript, .stop .paragraph])
    (hdepth : 2 ≤ maxDepth) (hblank : Text.isBlankText s = false) :
    compile dialect maxSteps maxDepth source collect =
      .ok ⟨if collect then .styled .paragraph [.rawScript s] else .rawScript s, []⟩ := by
  have hnodes : Extract.nodesOf dialect 0 [.node .paragraph [.node .rawScript [.text s]]] =
      .ok ([.styled .paragraph [.rawScript s]], []) := by
    simp [Extract.nodesOf, Extract.node, Extract.container, Range.plainText, bind, Except.bind,
      pure, Except.pure]
  simp only [compile, hscan, hevents, Range.ofEvents_script hdepth,
    Range.tidy_script hblank, hnodes, Except.mapError, bind, Except.bind, pure, Except.pure]
  cases collect <;> rfl

end Content

namespace Compiler

/-- A text between the markers of raw script. -/
def scriptOf (s : String) : String := "\x7b!" ++ s ++ "!\x7d"

theorem toList_scriptOf (s : String) :
    (scriptOf s).toList = '\x7b' :: '!' :: (s.toList ++ ['!', '\x7d']) := by
  simp [scriptOf]

/-- Raw script is kept to the letter, whatever markers it holds: if it is not blank, does not
hold its closer and does not end with an opening brace, it is the root, or the only child of a
paragraph where paragraphs are collected, and there are no dependencies. With a brace at its end
it is never closed. -/
theorem compile_scriptOf (c : Compiler) (s : String) (collect : Bool)
    (hsteps : (scriptOf s).utf8ByteSize ≤ c.limits.maxLexIterations)
    (hdepth : 2 ≤ c.limits.maxNestingDepth) (hblank : Text.isBlankText s = false)
    (hclosed : ¬ "!\x7d".toList <:+: s.toList) :
    c.compileContent (scriptOf s) collect =
      if s.toList.getLast? = some '\x7b' then .error (.markup (.unclosed .rawScript 0))
      else .ok ⟨if collect then .styled .paragraph [.rawScript s] else .rawScript s, []⟩ := by
  obtain ⟨tokens, hscan⟩ :=
    Scanner.exists_scan_lenient
      (Table.scan_ne_runaway (Feature.match_ne collect c.limits.maxLexIterations) hsteps)
  split
  · rename_i hlast
    obtain ⟨front, hfront⟩ := List.getLast?_eq_some_iff.mp hlast
    have hsource : (scriptOf s).toList = '\x7b' :: '!' :: (front ++ ['\x7b', '!', '\x7d']) := by
      rw [toList_scriptOf, hfront, List.append_assoc]
      rfl
    have hfrontClosed : ¬ ['!', '\x7d'] <:+: front := by
      intro hinfix
      apply hclosed
      rw [hfront]
      exact hinfix.trans (List.prefix_append _ _).isInfix
    obtain ⟨middle, rfl, hmiddle⟩ := Feature.tokens_of_brace hscan hsource hfrontClosed
    exact Content.compile_of_unclosed hscan (Event.ofTokens_unclosed hmiddle)
  · rename_i hlast
    obtain ⟨middle, offset, rfl, hmiddle, hjoin⟩ :=
      Feature.tokens_of_script hscan (toList_scriptOf s) hclosed hlast
    rw [String.ofList_toList] at hjoin
    have hne : s ≠ "" := by
      rintro rfl
      cases hblank
    exact Content.compile_of_script hscan (Event.ofTokens_script hmiddle hjoin hne)
      hdepth hblank

theorem compile_scriptOf_markers :
    let s := "[?\x7b!*\n---\n\n//\n>!"
    Text.isBlankText s = false ∧ ¬ "!\x7d".toList <:+: s.toList ∧
      compileContent ⟨Limits.standard⟩ (scriptOf s) true =
        .ok ⟨.styled .paragraph [.rawScript s], []⟩ ∧
      compileContent ⟨Limits.standard⟩ (scriptOf s) false = .ok ⟨.rawScript s, []⟩ := by
  intro s
  have hsteps : (scriptOf s).utf8ByteSize ≤ Limits.standard.maxLexIterations := by
    decide +kernel
  have hdepth : 2 ≤ Limits.standard.maxNestingDepth := by decide
  have hblank : Text.isBlankText s = false := by decide +kernel
  have hclosed : ¬ "!\x7d".toList <:+: s.toList := by decide +kernel
  have hlast : s.toList.getLast? ≠ some '\x7b' := by decide +kernel
  refine ⟨hblank, hclosed, ?_, ?_⟩
  · rw [compile_scriptOf ⟨Limits.standard⟩ s true hsteps hdepth hblank hclosed, if_neg hlast]
    rfl
  · rw [compile_scriptOf ⟨Limits.standard⟩ s false hsteps hdepth hblank hclosed, if_neg hlast]
    rfl

theorem brace_not_kept :
    Text.isBlankText "\x7b" = false ∧ ¬ "!\x7d".toList <:+: "\x7b".toList ∧
      ∀ content, compileContent ⟨Limits.standard⟩ (scriptOf "\x7b") false ≠ .ok content := by
  refine ⟨by decide +kernel, by decide +kernel, ?_⟩
  intro content h
  have hfails : (compileContent ⟨Limits.standard⟩ (scriptOf "\x7b") false).isOk = false := by
    decide +kernel
  rw [h] at hfails
  cases hfails

end Compiler

end Fabula
