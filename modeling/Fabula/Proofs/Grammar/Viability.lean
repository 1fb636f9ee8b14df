import Fabula.Proofs.Grammar.Decision
import Fabula.Proofs.Grammar.Prediction
import Mathlib

namespace Fabula

variable {ν τ ρ : Type} [DecidableEq ν]

open Relation

namespace Grammar

def Sentence (g : Grammar ν τ ρ) (name : ν) (tags : List τ) : Prop :=
  ReflTransGen (Rewrites g) [.nonterminal name] (tags.map .terminal)

def Productive (g : Grammar ν τ ρ) : Prop :=
  ∀ p name, g.lhs? p = some name → ∃ tags, g.Sentence name tags

/-- The tokens begin a sentence of the non-terminal. -/
def Viable (g : Grammar ν τ ρ) (name : ν) (tokens : List (Token τ)) : Prop :=
  ∃ tags, g.Sentence name tags ∧ tokens.map Token.tag <+: tags.map some

/-- Every non-terminal of the form has a production. -/
def Grounded (g : Grammar ν τ ρ) (form : List (Symbol ν τ)) : Prop :=
  ∀ name, .nonterminal name ∈ form → ∃ p, g.lhs? p = some name

variable {g : Grammar ν τ ρ} {name root : ν} {form form' : List (Symbol ν τ)} {p : Nat}

theorem exists_lhs?_of_defined (h : Production.defined g.productions.toList name = true) :
    ∃ p, g.lhs? p = some name := by
  obtain ⟨q, hq, hname⟩ := List.any_eq_true.mp h
  obtain ⟨p, hp⟩ := Array.mem_iff_getElem?.mp (Array.mem_toList_iff.mp hq)
  exact ⟨p, lhs?_eq_some_iff.mpr ⟨q, hp, by simpa using hname⟩⟩

theorem grounded_root (hr : root ∈ g.roots) : g.Grounded [.nonterminal root] := by
  have hfault := g.faultless
  unfold Production.fault? at hfault
  split at hfault
  · cases hfault
  · rename_i hroots
    intro name hname
    cases List.mem_singleton.mp hname
    apply exists_lhs?_of_defined
    simpa using List.find?_eq_none.mp hroots root hr

theorem grounded_rhs (produced : g.lhs? p = some name) : g.Grounded (g.rhs p) := by
  have hfault := g.faultless
  unfold Production.fault? at hfault
  split at hfault
  · cases hfault
  · split at hfault
    · cases hfault
    · rename_i hdefined
      obtain ⟨q, hq, -, hrhs⟩ := g.exists_production produced
      intro inner hinner
      rw [hrhs] at hinner
      apply exists_lhs?_of_defined
      have hmentions := List.findSome?_eq_none_iff.mp hdefined q hq
      rw [Option.map_eq_none_iff] at hmentions
      have hmem : inner ∈ q.mentions := List.mem_filterMap.mpr ⟨_, hinner, rfl⟩
      simpa using List.find?_eq_none.mp hmentions inner hmem

theorem Grounded.step (h : g.Grounded form) (hs : Rewrites g form form') :
    g.Grounded form' := by
  cases hs with
  | step before after produced =>
    intro name hname
    rcases List.mem_append.mp hname with hname | hname
    · rcases List.mem_append.mp hname with hname | hname
      · exact h name (List.mem_append_left _ hname)
      · exact grounded_rhs produced name hname
    · exact h name (List.mem_append_right _ (List.mem_cons_of_mem _ hname))

theorem Grounded.star (h : g.Grounded form) (hs : ReflTransGen (Rewrites g) form form') :
    g.Grounded form' := by
  induction hs with
  | refl => exact h
  | tail _ hs ih => exact ih.step hs

theorem Productive.exists_tags (hg : g.Productive) (h : g.Grounded form) :
    ∃ tags : List τ, ReflTransGen (Rewrites g) form (tags.map .terminal) := by
  induction form with
  | nil => exact ⟨[], .refl⟩
  | cons s form ih =>
    obtain ⟨rest, hrest⟩ := ih fun name hname => h name (List.mem_cons_of_mem _ hname)
    have hlater := Rewrites.frame_star [s] [] hrest
    simp only [List.append_nil, List.singleton_append] at hlater
    cases s with
    | terminal tag => exact ⟨tag :: rest, hlater⟩
    | nonterminal name =>
      obtain ⟨p, hp⟩ := h name List.mem_cons_self
      obtain ⟨tags, htags⟩ := hg p name hp
      have hfirst := Rewrites.frame_star [] (rest.map .terminal) htags
      refine ⟨tags ++ rest, hlater.trans ?_⟩
      simpa using hfirst

end Grammar

namespace Derives

variable {g : Grammar ν τ ρ} {tokens tokens' : Array (Token τ)}
  {symbols form form' : List (Symbol ν τ)}
  {trees : List Derivation} {tags : List τ} {i k : Nat}

theorem congr (h : Derives g tokens symbols trees i k)
    (hsame : ∀ m < k, tokens'[m]?.bind (·.tag) = tokens[m]?.bind (·.tag)) :
    Derives g tokens' symbols trees i k := by
  induction h with
  | nil => exact .nil
  | token matched rest ih => exact .token ((hsame _ rest.le).trans matched) (ih hsame)
  | rule produced inner rest ihInner ihRest =>
    exact .rule produced (ihInner fun m hm => hsame m (Nat.lt_of_lt_of_le hm rest.le))
      (ihRest hsame)

theorem exists_tags (h : Derives g tokens symbols trees i k) :
    ∃ tags : List τ, ReflTransGen (Rewrites g) symbols (tags.map .terminal) ∧
      (tokens.toList.take k).map Token.tag =
        (tokens.toList.take i).map Token.tag ++ tags.map some := by
  induction h with
  | nil => exact ⟨[], .refl, by simp⟩
  | @token tag symbols trees i k matched rest ih =>
    obtain ⟨tags, hrewrites, htags⟩ := ih
    obtain ⟨t, ht, htag⟩ := exists_token matched
    have hlater := Rewrites.frame_star [.terminal tag] [] hrewrites
    refine ⟨tag :: tags, by simpa using hlater, ?_⟩
    have hi : tokens.toList[i]? = some t := by simpa using ht
    rw [htags, List.take_add_one, hi]
    simp [htag]
  | @rule p name symbols children trees i j k produced inner rest ihInner ihRest =>
    obtain ⟨first, hfirst, htags⟩ := ihInner
    obtain ⟨later, hlater, htags'⟩ := ihRest
    have hhead : Rewrites g (.nonterminal name :: symbols) (g.rhs p ++ symbols) :=
      .step [] symbols produced
    have hfront := Rewrites.frame_star [] symbols hfirst
    have hback := Rewrites.frame_star (first.map .terminal) [] hlater
    refine ⟨first ++ later, ReflTransGen.head hhead (hfront.trans ?_), ?_⟩
    · simpa using hback
    · rw [htags', htags, List.map_append, List.append_assoc]

theorem of_rewrites (hs : Rewrites g form form') (h : Derives g tokens form' trees i k) :
    ∃ trees, Derives g tokens form trees i k := by
  cases hs with
  | step before after produced =>
    obtain ⟨left, third, k', rfl, hleft, hthird⟩ := h.split
    obtain ⟨first, second, j, rfl, hfirst, hsecond⟩ := hleft.split
    exact ⟨_, hfirst.append (.rule produced hsecond hthird)⟩

theorem of_tags (h : (tokens.toList.drop i).map Token.tag = tags.map some) :
    ∃ trees, Derives g tokens (tags.map .terminal) trees i (i + tags.length) := by
  induction tags generalizing i with
  | nil => exact ⟨[], .nil⟩
  | cons tag tags ih =>
    cases hdrop : tokens.toList.drop i with
    | nil => simp [hdrop] at h
    | cons t rest =>
      rw [hdrop] at h
      obtain ⟨htag, hrest⟩ := List.cons.inj h
      have hi : tokens[i]? = some t := by
        rw [← Array.getElem?_toList, ← List.head?_drop, hdrop]
        rfl
      have hnext : tokens.toList.drop (i + 1) = rest := by
        rw [← List.drop_drop, hdrop]
        rfl
      obtain ⟨trees, htrees⟩ := ih (hnext ▸ hrest)
      refine ⟨.leaf i :: trees, .token ?_ ?_⟩
      · rw [hi]
        exact htag
      · simpa [Nat.add_assoc, Nat.add_comm 1] using htrees

theorem of_sentence (hs : ReflTransGen (Rewrites g) form (tags.map .terminal))
    (ht : tokens.toList.map Token.tag = tags.map some) :
    ∃ trees, Derives g tokens form trees 0 tags.length := by
  induction hs using ReflTransGen.head_induction_on with
  | refl =>
    have htokens := of_tags (g := g) (i := 0) ht
    simpa using htokens
  | head hstep _ ih =>
    obtain ⟨trees, htrees⟩ := ih
    exact of_rewrites hstep htrees

end Derives

namespace Chart

variable {g : Grammar ν τ ρ} {root : ν} {tokens : Array (Token τ)} {chart : Chart} {item : Item}
  {c i k : Nat}

omit [DecidableEq ν] in
theorem drop_next {s : Symbol ν τ} {symbols rest : List (Symbol ν τ)} {n : Nat}
    (h : symbols.drop n = s :: rest) : symbols.drop (n + 1) = rest := by
  rw [← List.drop_drop, h]
  rfl

/-- From where an item stands, the chart reaches every border of what follows its dot as far as
the tokens agree with ones that are derived from it. -/
theorem Exact.reaches (h : Exact g root tokens chart) {derived : Array (Token τ)}
    {symbols more : List (Symbol ν τ)} {trees : List Derivation}
    (hd : Derives g derived symbols trees i k)
    (hsame : ∀ m < c, tokens[m]?.bind (·.tag) = derived[m]?.bind (·.tag))
    (hi : chart.Holds i item none)
    (hs : (g.rhs item.production).drop item.dot = symbols ++ more) (hic : i ≤ c) (hck : c ≤ k) :
    ∃ item, chart.Holds c item none := by
  -- A border inside a phrase is reached by the items that begin with the phrase.
  induction hd generalizing item more with
  | nil =>
    obtain rfl := Nat.le_antisymm hic hck
    exact ⟨item, hi⟩
  | @token tag symbols trees i k matched rest ih =>
    rcases Nat.eq_or_lt_of_le hic with rfl | hlt
    · exact ⟨item, hi⟩
    · have hfirst : Derives g tokens [.terminal tag] [.leaf i] i (i + 1) :=
        .token ((hsame i hlt).trans matched) .nil
      exact ih (h.holds_of_derives hfirst hi hs) (drop_next hs) hlt hck
  | @rule p name symbols children trees i j k produced inner rest ihInner ihRest =>
    rcases Nat.lt_or_ge j c with hlt | hge
    · have hfirst : Derives g tokens [.nonterminal name] [.node p children] i j :=
        .rule produced (inner.congr fun m hm => hsame m (Nat.lt_trans hm hlt)) .nil
      exact ihRest (h.holds_of_derives hfirst hi hs) (drop_next hs) (Nat.le_of_lt hlt) hck
    · obtain ⟨b, f, hf, rfl, rfl, -⟩ := hi
      have hsym : f.item.symbol? g = some (.nonterminal name) := by
        rw [Item.symbol?, ← List.head?_drop, hs]
        rfl
      have hbegun := h.closed _ _ (.predict hf hsym produced)
      have hwhole : (g.rhs p).drop (Item.begin p b.column).dot = g.rhs p ++ [] := by
        simp [Item.begin]
      exact ihInner hbegun hwhole hic hge

theorem Built.viable (h : Built g root tokens chart) (hg : g.Productive) (hr : root ∈ g.roots)
    (hi : chart.Holds c item none) : g.Viable root (tokens.toList.take c) := by
  obtain ⟨a, e, he, rfl, rfl, -⟩ := hi
  have hs := h.spans he
  obtain ⟨name, hname⟩ := Option.isSome_iff_exists.mp hs.produced
  obtain ⟨trees, hd⟩ := hs.derives
  obtain ⟨before, after, lead, hform, hlead⟩ := h.predicts he hname
  have hform := hform.tail (.step before after hname)
  rw [← List.take_append_drop e.item.dot (g.rhs e.item.production)] at hform
  -- What stands before the dot rewrites to the tags of the tokens, what stands behind it to
  -- some tags.
  obtain ⟨tags, htags, heq⟩ := (hlead.append hd).exists_tags
  have hgrounded : g.Grounded ((g.rhs e.item.production).drop e.item.dot ++ after) := by
    intro inner hinner
    apply (Grammar.grounded_root hr).star hform
    simp only [List.append_assoc, List.mem_append] at hinner ⊢
    tauto
  obtain ⟨more, hmore⟩ := hg.exists_tags hgrounded
  have hfront :=
    Rewrites.frame_star [] ((g.rhs e.item.production).drop e.item.dot ++ after) htags
  have hback := Rewrites.frame_star (tags.map .terminal) [] hmore
  refine ⟨tags ++ more, hform.trans ?_, ?_⟩
  · simp only [List.nil_append, List.append_nil, List.append_assoc, List.map_append]
      at hfront hback ⊢
    exact hfront.trans hback
  · rw [heq]
    simp

theorem Exact.holds_of_viable (h : Exact g root tokens chart) (hc : c ≤ tokens.size)
    (hv : g.Viable root (tokens.toList.take c)) : ∃ item, chart.Holds c item none := by
  obtain ⟨tags, hsentence, hprefix⟩ := hv
  obtain ⟨derived, htags⟩ :
      ∃ derived : Array (Token τ), derived.toList.map Token.tag = tags.map some :=
    ⟨(tags.map fun tag => ⟨some tag, 0, ""⟩).toArray, by simp⟩
  obtain ⟨trees, hd⟩ := Derives.of_sentence hsentence htags
  obtain ⟨d, rfl⟩ := List.length_eq_one_iff.mp hd.length_eq
  obtain ⟨p, children, rfl, produced, hchildren⟩ := Derives.rule_iff.mp hd
  have hwhole : (g.rhs p).drop (Item.begin p 0).dot = g.rhs p ++ [] := by
    simp [Item.begin]
  have hlength := hprefix.length_le
  obtain ⟨rest, hrest⟩ := hprefix
  refine h.reaches hchildren ?_ (h.closed _ _ (.root produced)) hwhole (Nat.zero_le c) ?_
  · intro m hm
    have hget : (derived.toList.map Token.tag)[m]? =
        ((tokens.toList.take c).map Token.tag)[m]? := by
      rw [htags, ← hrest, List.getElem?_append_left]
      simp
      omega
    rw [List.getElem?_map, List.getElem?_map, List.getElem?_take_of_lt hm] at hget
    simpa [Option.bind_map] using congrArg (Option.bind · id) hget.symm
  · simpa [Nat.min_eq_left hc] using hlength

theorem not_isEmpty_column :
    (chart.column c).isEmpty = false ↔ ∃ item, chart.Holds c item none := by
  rw [Array.isEmpty_eq_false_iff_exists_mem]
  constructor
  · rintro ⟨e, he⟩
    exact ⟨e.item, mem_column_iff.mp ⟨e, he, rfl⟩⟩
  · rintro ⟨item, hi⟩
    obtain ⟨e, he, -⟩ := mem_column_iff.mpr hi
    exact ⟨e, he⟩

theorem foldl_last {test : Nat → Bool} {n last : Nat}
    (h : (List.range n).foldl (fun last c => if test c then last else c) 0 = last) :
    (last = 0 ∨ test last = false) ∧ ∀ c < n, test c = false → c ≤ last := by
  induction n generalizing last with
  | zero => exact ⟨.inl h.symm, by simp⟩
  | succ n ih =>
    rw [List.range_succ, List.foldl_append] at h
    obtain ⟨hlast, hle⟩ := ih rfl
    simp only [List.foldl_cons, List.foldl_nil] at h
    split at h
    · rename_i htest
      subst h
      refine ⟨hlast, fun c hc hfails => ?_⟩
      rcases Nat.eq_or_lt_of_le (Nat.le_of_lt_succ hc) with rfl | hlt
      · rw [htest] at hfails
        cases hfails
      · exact hle c hlt hfails
    · rename_i hfails
      subst h
      exact ⟨.inr (by simpa using hfails), fun c hc _ => Nat.le_of_lt_succ hc⟩

theorem furthest_spec (chart : Chart) :
    (chart.furthest = 0 ∨ ∃ item, chart.Holds chart.furthest item none) ∧
      ∀ c item, chart.Holds c item none → c ≤ chart.furthest := by
  obtain ⟨hlast, hle⟩ := foldl_last (rfl : _ = chart.furthest)
  refine ⟨hlast.imp_right not_isEmpty_column.mp, ?_⟩
  intro c item hi
  have hfilled := not_isEmpty_column.mpr ⟨item, hi⟩
  obtain ⟨a, e, he, rfl, -⟩ := hi
  exact hle a.column (lt_size_of_entryAt? he) hfilled

end Chart

namespace Grammar

variable [DecidableEq τ] {g : Grammar ν τ ρ} {root : ν} {tokens : List (Token τ)}

theorem noParse_eq {offset : Nat} {found : Option String}
    (h : g.parse root tokens = .error (.noParse offset found)) :
    root ∈ g.roots ∧
      offset = Token.offsetAt tokens.toArray (Chart.ofTokens g root tokens.toArray).furthest ∧
      found = tokens[(Chart.ofTokens g root tokens.toArray).furthest]?.map (·.text) := by
  unfold parse at h
  split at h
  · rename_i hr
    dsimp only at h
    split at h
    · cases h
      exact ⟨hr, rfl, by simp⟩
    · obtain ⟨rule, message, he⟩ := reduce_error h
      cases he
    · cases h
  · cases h

/-- A failed parse points at the first token with which the tokens do not begin a sentence any
more, or at the end of the last token if all of them begin one. -/
theorem noParse_at_viable_end (g : Grammar ν τ ρ) (hg : g.Productive) (root : ν)
    (tokens : List (Token τ)) (offset : Nat) (found : Option String)
    (h : g.parse root tokens = .error (.noParse offset found)) :
    (∃ k token, tokens[k]? = some token ∧ offset = token.start ∧ found = some token.text ∧
        g.Viable root (tokens.take k) ∧ ¬g.Viable root (tokens.take (k + 1))) ∨
      (offset = (tokens.getLast?.map Token.stop).getD 0 ∧ found = none ∧
        g.Viable root tokens) := by
  obtain ⟨hr, hoffset, hfound⟩ := noParse_eq h
  have hx := Chart.exact_ofTokens g root tokens.toArray
  obtain ⟨hlast, hle⟩ := Chart.furthest_spec (Chart.ofTokens g root tokens.toArray)
  generalize (Chart.ofTokens g root tokens.toArray).furthest = k at *
  have hviable : g.Viable root (tokens.take k) := by
    rcases hlast with rfl | ⟨item, hi⟩
    · obtain ⟨p, hp⟩ := grounded_root hr root List.mem_cons_self
      obtain ⟨tags, htags⟩ := hg p root hp
      exact ⟨tags, htags, by simp⟩
    · exact hx.built.viable hg hr hi
  cases hk : tokens[k]? with
  | some token =>
    refine .inl ⟨k, token, hk, ?_, ?_, hviable, ?_⟩
    · simpa [Token.offsetAt, hk] using hoffset
    · simpa [hk] using hfound
    · intro hnext
      have hlt : k + 1 ≤ tokens.toArray.size := by
        simpa using (List.getElem?_eq_some_iff.mp hk).1
      obtain ⟨item, hi⟩ := hx.holds_of_viable hlt hnext
      exact Nat.not_succ_le_self k (hle _ item hi)
  | none =>
    have hsize := List.getElem?_eq_none_iff.mp hk
    refine .inr ⟨?_, by simpa [hk] using hfound, ?_⟩
    · simpa [Token.offsetAt, hk] using hoffset
    · rwa [List.take_of_length_le hsize] at hviable

def bracketed : Grammar Bool Char Unit where
  roots := [true]
  productions :=
    #[⟨true, [.terminal '(', .nonterminal false, .terminal ')'], fun _ => .ok ()⟩,
      ⟨false, [], fun _ => .ok ()⟩,
      ⟨false, [.nonterminal false, .terminal 'a'], fun _ => .ok ()⟩,
      ⟨false, [.nonterminal false, .nonterminal true], fun _ => .ok ()⟩]
  faultless := by decide

theorem bracketed_productive : bracketed.Productive := by
  have hwords : bracketed.Sentence false [] := .single (.step (p := 1) [] [] rfl)
  intro p name hp
  cases name with
  | false => exact ⟨[], hwords⟩
  | true =>
    have hopen :
        Rewrites bracketed [.nonterminal true]
          [.terminal '(', .nonterminal false, .terminal ')'] :=
      .step (p := 0) [] [] rfl
    exact ⟨['(', ')'], .head hopen (Rewrites.frame_star [.terminal '('] [.terminal ')'] hwords)⟩

/-- A word after the last bracket is one too many, and an open bracket leaves the end to
blame. -/
theorem bracketed_located :
    (bracketed.parse true
      [⟨some '(', 0, "("⟩, ⟨some 'a', 1, "a"⟩, ⟨some ')', 2, ")"⟩, ⟨some 'a', 3, "a"⟩] =
        .error (.noParse 3 (some "a")) ∧
      bracketed.Viable true [⟨some '(', 0, "("⟩, ⟨some 'a', 1, "a"⟩, ⟨some ')', 2, ")"⟩] ∧
      ¬bracketed.Viable true
      [⟨some '(', 0, "("⟩, ⟨some 'a', 1, "a"⟩, ⟨some ')', 2, ")"⟩, ⟨some 'a', 3, "a"⟩]) ∧
      bracketed.parse true [⟨some '(', 0, "("⟩, ⟨some '(', 1, "("⟩, ⟨some 'a', 2, "a"⟩] =
        .error (.noParse 3 none) ∧
      bracketed.Viable true [⟨some '(', 0, "("⟩, ⟨some '(', 1, "("⟩, ⟨some 'a', 2, "a"⟩] := by
  have hword : bracketed.parse true
      [⟨some '(', 0, "("⟩, ⟨some 'a', 1, "a"⟩, ⟨some ')', 2, ")"⟩, ⟨some 'a', 3, "a"⟩] =
        .error (.noParse 3 (some "a")) := by decide +kernel
  have hend : bracketed.parse true
      [⟨some '(', 0, "("⟩, ⟨some '(', 1, "("⟩, ⟨some 'a', 2, "a"⟩] =
      .error (.noParse 3 none) := by decide +kernel
  refine ⟨⟨hword, ?_⟩, hend, ?_⟩
  · rcases noParse_at_viable_end bracketed bracketed_productive true _ _ _ hword with
      ⟨k, token, hk, hoffset, -, hbefore, hafter⟩ | ⟨-, hfound, -⟩
    · have hlt : k < 4 := (List.getElem?_eq_some_iff.mp hk).1
      interval_cases k
      · cases hk
        cases hoffset
      · cases hk
        cases hoffset
      · cases hk
        cases hoffset
      · exact ⟨hbefore, hafter⟩
    · cases hfound
  · rcases noParse_at_viable_end bracketed bracketed_productive true _ _ _ hend with
      ⟨k, token, -, -, hfound, -⟩ | ⟨-, -, hviable⟩
    · cases hfound
    · exact hviable

end Grammar

end Fabula
