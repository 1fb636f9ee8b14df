import Fabula.Proofs.Grammar.Trees
import Mathlib

namespace Fabula

/-- What tokens are for: brackets shift the level, some tokens can end an operand, operators
have a rank (0 for all other tokens), and the plain tokens are told from the foreign ones. -/
structure Signs (τ : Type) where
  shift : τ → Int
  ends : τ → Bool
  rank : τ → Nat
  plain : τ → Bool

/-- What a phrase looks like from outside: its possible first and last tokens, the highest rank
of an operator inside it and outside its brackets, a rank that some operator there has at least,
whether all its tokens are plain, and whether some are not. -/
structure Outline (τ : Type) where
  first : List τ
  last : List τ
  top : Nat
  sure : Nat
  plain : Bool
  foreign : Bool

structure Layers (ν τ : Type) extends Signs τ where
  outline : ν → Outline τ

variable {ν τ ρ : Type}

def tagAt (tokens : Array (Token τ)) (m : Nat) : Option τ :=
  tokens[m]?.bind (·.tag)

namespace Signs

variable (S : Signs τ) (tokens : Array (Token τ))

def level : Nat → Int
  | 0 => 0
  | m + 1 => level m + ((tagAt tokens m).map S.shift).getD 0

/-- The rank of the operator at a position. Only what follows an operand is an operator. -/
def mark (m : Nat) : Nat :=
  if m ≠ 0 ∧ (tagAt tokens (m - 1)).any S.ends then ((tagAt tokens m).map S.rank).getD 0 else 0

end Signs

namespace Layers

def outlineOf (L : Layers ν τ) : Symbol ν τ → Outline τ
  | .terminal t => ⟨[t], [t], 0, 0, L.plain t, !L.plain t⟩
  | .nonterminal name => L.outline name

def shiftOf (L : Layers ν τ) : Symbol ν τ → Int
  | .terminal t => L.shift t
  | .nonterminal _ => 0

/-- What the outline of a symbol says of the tokens between two borders. -/
structure Reads (L : Layers ν τ) (tokens : Array (Token τ)) (s : Symbol ν τ)
    (i k : Nat) : Prop where
  lt : i < k
  first : ∃ t ∈ (L.outlineOf s).first, tagAt tokens i = some t
  last : ∃ t ∈ (L.outlineOf s).last, tagAt tokens (k - 1) = some t
  shift : L.level tokens k = L.level tokens i + L.shiftOf s
  above : ∀ m, i ≤ m → m < k → L.level tokens i ≤ L.level tokens m
  marks : ∀ m, i < m → m < k → L.level tokens m = L.level tokens i →
    L.mark tokens m ≤ (L.outlineOf s).top
  sure : 0 < (L.outlineOf s).sure → ∃ m, i < m ∧ m < k ∧ L.level tokens m = L.level tokens i ∧
    (L.outlineOf s).sure ≤ L.mark tokens m
  plain : (L.outlineOf s).plain = true → ∀ m, i ≤ m → m < k →
    ∃ t, tagAt tokens m = some t ∧ L.plain t = true
  foreign : (L.outlineOf s).foreign = true →
    ∃ m t, i ≤ m ∧ m < k ∧ tagAt tokens m = some t ∧ L.plain t = false

/-- The tokens between two borders are cut into pieces, one for each symbol, that agree with
it. -/
inductive Tiles (L : Layers ν τ) (tokens : Array (Token τ)) :
    List (Symbol ν τ) → Nat → Nat → Prop where
  | nil {i : Nat} : Tiles L tokens [] i i
  | token {t : τ} {symbols : List (Symbol ν τ)} {i k : Nat} (matched : tagAt tokens i = some t)
      (rest : Tiles L tokens symbols (i + 1) k) : Tiles L tokens (.terminal t :: symbols) i k
  | phrase {name : ν} {symbols : List (Symbol ν τ)} {i j k : Nat}
      (reads : Reads L tokens (.nonterminal name) i j) (rest : Tiles L tokens symbols j k) :
      Tiles L tokens (.nonterminal name :: symbols) i k

def lasts (L : Layers ν τ) : List (Symbol ν τ) → List τ
  | [] => []
  | [s] => (L.outlineOf s).last
  | _ :: rest => L.lasts rest

/-- From the given level, brackets are closed only after they were opened, and all are
closed. -/
def balanced (L : Layers ν τ) : Int → List (Symbol ν τ) → Bool
  | l, [] => l == 0
  | l, s :: rest => 0 ≤ l && L.balanced (l + L.shiftOf s) rest

def lowBorder (L : Layers ν τ) (n : Nat) (before : List τ) (s : Symbol ν τ) : Bool :=
  !before.any L.ends || (L.outlineOf s).first.all (L.rank · ≤ n)

/-- No operator of a rank above `n` stands outside brackets in symbols at the given level after
one of the given tokens. -/
def lowAfter (L : Layers ν τ) (n : Nat) : Int → List τ → List (Symbol ν τ) → Bool
  | _, _, [] => true
  | l, before, s :: rest =>
    (l ≠ 0 || L.lowBorder n before s && (L.outlineOf s).top ≤ n) &&
      L.lowAfter n (l + L.shiftOf s) (L.outlineOf s).last rest

/-- No operator of a rank above `n` stands outside brackets in symbols, their first token
apart. -/
def low (L : Layers ν τ) (n : Nat) : List (Symbol ν τ) → Bool
  | [] => true
  | s :: rest => (L.outlineOf s).top ≤ n && L.lowAfter n (L.shiftOf s) (L.outlineOf s).last rest

variable {L : Layers ν τ} {tokens : Array (Token τ)} {s : Symbol ν τ}
  {symbols : List (Symbol ν τ)}
  {α : List (Symbol ν τ)} {t : τ} {i j k n r : Nat}

theorem reads_terminal (h : tagAt tokens i = some t) :
    L.Reads tokens (.terminal t) i (i + 1) where
  lt := Nat.lt_succ_self i
  first := ⟨t, List.mem_singleton.mpr rfl, h⟩
  last := ⟨t, List.mem_singleton.mpr rfl, h⟩
  shift := by simp [Signs.level, h, shiftOf]
  above m him hmk := by
    obtain rfl : m = i := by omega
    exact Int.le_refl _
  marks m him hmk := by omega
  sure hs := by simp [outlineOf] at hs
  plain hp m him hmk := by
    obtain rfl : m = i := by omega
    exact ⟨t, h, hp⟩
  foreign hf := ⟨i, t, Nat.le_refl i, Nat.lt_succ_self i, h, by simpa [outlineOf] using hf⟩

namespace Tiles

theorem cons (h : L.Tiles tokens (s :: symbols) i k) :
    ∃ j, L.Reads tokens s i j ∧ L.Tiles tokens symbols j k := by
  cases h with
  | token matched rest => exact ⟨i + 1, reads_terminal matched, rest⟩
  | phrase reads rest => exact ⟨_, reads, rest⟩

theorem le (h : L.Tiles tokens symbols i k) : i ≤ k := by
  induction h with
  | nil => exact Nat.le_refl _
  | token matched rest ih => exact Nat.le_of_succ_le ih
  | phrase reads rest ih => exact Nat.le_trans (Nat.le_of_lt reads.lt) ih

theorem last (h : L.Tiles tokens symbols i k) (hne : symbols ≠ []) :
    ∃ t ∈ L.lasts symbols, tagAt tokens (k - 1) = some t := by
  induction symbols generalizing i with
  | nil => exact absurd rfl hne
  | cons s rest ih =>
    obtain ⟨j, hs, hrest⟩ := h.cons
    cases rest with
    | nil =>
      cases hrest
      exact hs.last
    | cons s' rest => exact ih hrest (by simp)

/-- Brackets that are balanced end on the level where they began and never go below it. -/
theorem balanced {l b : Int} (h : L.Tiles tokens symbols j k) (hb : L.balanced l symbols = true)
    (hl : L.level tokens j = b + l) :
    L.level tokens k = b ∧ ∀ m, j ≤ m → m ≤ k → b ≤ L.level tokens m := by
  -- The base `b` is fixed; `l` is how far above it the remaining symbols begin.
  induction symbols generalizing j l with
  | nil =>
    cases h
    simp only [Layers.balanced, beq_iff_eq] at hb
    refine ⟨by omega, fun m h₁ h₂ => ?_⟩
    rw [Nat.le_antisymm h₂ h₁]
    omega
  | cons s rest ih =>
    obtain ⟨j', hs, hrest⟩ := h.cons
    simp only [Layers.balanced, Bool.and_eq_true, decide_eq_true_eq] at hb
    obtain ⟨hk, habove⟩ := ih hrest hb.2 (by rw [hs.shift, hl]; omega)
    refine ⟨hk, fun m h₁ h₂ => ?_⟩
    rcases Nat.lt_or_ge m j' with hlt | hge
    · have := hs.above m h₁ hlt
      omega
    · exact habove m hge h₂

theorem mark_le_of_lowBorder {before : List τ} {t : τ} (h : L.lowBorder n before s = true)
    (hbefore : t ∈ before) (ht : tagAt tokens (i - 1) = some t) (hs : L.Reads tokens s i k) :
    L.mark tokens i ≤ n := by
  obtain ⟨u, hu, hi⟩ := hs.first
  unfold Signs.mark
  split
  · rename_i hmark
    have hends : before.any L.ends = true :=
      List.any_eq_true.mpr ⟨t, hbefore, by simpa [ht] using hmark.2⟩
    simp only [lowBorder, hends, Bool.not_true, Bool.false_or] at h
    simpa [hi] using List.all_eq_true.mp h u hu
  · exact Nat.zero_le n

theorem mark_le_of_lowAfter {l b : Int} {before : List τ} {t : τ}
    (h : L.Tiles tokens symbols j k) (hb : L.balanced l symbols = true)
    (hlow : L.lowAfter n l before symbols = true) (hl : L.level tokens j = b + l)
    (hbefore : t ∈ before) (ht : tagAt tokens (j - 1) = some t) {m : Nat} (hjm : j ≤ m)
    (hmk : m < k) (hm : L.level tokens m = b) : L.mark tokens m ≤ n := by
  induction symbols generalizing j l before t with
  | nil =>
    cases h
    omega
  | cons s rest ih =>
    obtain ⟨j', hs, hrest⟩ := h.cons
    simp only [Layers.balanced, Bool.and_eq_true, decide_eq_true_eq] at hb
    simp only [lowAfter, Bool.and_eq_true, Bool.or_eq_true, decide_eq_true_eq] at hlow
    obtain ⟨hhere, hlow⟩ := hlow
    rcases Nat.lt_or_ge m j' with hlt | hge
    · -- Inside the symbol: it stands on the base level itself, or nothing in it does.
      have habove := hs.above m hjm hlt
      have hl0 : l = 0 := by omega
      obtain hne | ⟨hborder, htop⟩ := hhere
      · exact absurd hl0 hne
      · rcases Nat.eq_or_lt_of_le hjm with rfl | hjm
        · exact mark_le_of_lowBorder hborder hbefore ht hs
        · exact Nat.le_trans (hs.marks m hjm hlt (by omega)) htop
    · obtain ⟨u, hu, hlast⟩ := hs.last
      refine ih hrest hb.2 hlow ?_ hu hlast hge
      rw [hs.shift, hl]
      omega

theorem mark_le_of_low (h : L.Tiles tokens symbols i k) (hb : L.balanced 0 symbols = true)
    (hlow : L.low n symbols = true) {m : Nat} (him : i < m) (hmk : m < k)
    (hm : L.level tokens m = L.level tokens i) : L.mark tokens m ≤ n := by
  cases symbols with
  | nil =>
    cases h
    omega
  | cons s rest =>
    obtain ⟨j, hs, hrest⟩ := h.cons
    simp only [Layers.balanced, Bool.and_eq_true, decide_eq_true_eq] at hb
    simp only [low, Bool.and_eq_true, decide_eq_true_eq] at hlow
    rcases Nat.lt_or_ge m j with hlt | hge
    · exact Nat.le_trans (hs.marks m him hlt hm) hlow.1
    · obtain ⟨t, ht, hlast⟩ := hs.last
      refine hrest.mark_le_of_lowAfter hb.2 ?_ ?_ ht hlast hge hmk hm
      · rw [Int.zero_add]
        exact hlow.2
      · rw [hs.shift]
        omega

theorem plain (h : L.Tiles tokens symbols i k)
    (hp : ∀ s ∈ symbols, (L.outlineOf s).plain = true) {m : Nat} (him : i ≤ m) (hmk : m < k) :
    ∃ t, tagAt tokens m = some t ∧ L.plain t = true := by
  induction symbols generalizing i with
  | nil =>
    cases h
    omega
  | cons s rest ih =>
    obtain ⟨j, hs, hrest⟩ := h.cons
    rcases Nat.lt_or_ge m j with hlt | hge
    · exact hs.plain (hp s List.mem_cons_self) m him hlt
    · exact ih hrest (fun s' hs' => hp s' (List.mem_cons_of_mem _ hs')) hge

theorem foreign (h : L.Tiles tokens symbols i k)
    (hf : ∃ s ∈ symbols, (L.outlineOf s).foreign = true) :
    ∃ m t, i ≤ m ∧ m < k ∧ tagAt tokens m = some t ∧ L.plain t = false := by
  induction symbols generalizing i with
  | nil => simp at hf
  | cons s rest ih =>
    obtain ⟨j, hs, hrest⟩ := h.cons
    obtain ⟨s', hmem, hf⟩ := hf
    rcases List.mem_cons.mp hmem with rfl | hmem
    · obtain ⟨m, t, h₁, h₂, hm⟩ := hs.foreign hf
      exact ⟨m, t, h₁, Nat.lt_of_lt_of_le h₂ hrest.le, hm⟩
    · obtain ⟨m, t, h₁, h₂, hm⟩ := ih hrest ⟨s', hmem, hf⟩
      exact ⟨m, t, Nat.le_trans (Nat.le_of_lt hs.lt) h₁, h₂, hm⟩

end Tiles

/-- The last operator outside brackets that has at least the given rank has just that rank. -/
structure SplitsAt (L : Layers ν τ) (tokens : Array (Token τ)) (r i k m : Nat) : Prop where
  after : i < m
  before : m < k
  level : L.level tokens m = L.level tokens i
  mark : L.mark tokens m = r
  last : ∀ m', m < m' → m' < k → L.level tokens m' = L.level tokens i → L.mark tokens m' < r

theorem SplitsAt.unique {m m' : Nat} (h : L.SplitsAt tokens r i k m)
    (h' : L.SplitsAt tokens r i k m') : m = m' := by
  rcases Nat.lt_trichotomy m m' with hlt | heq | hgt
  · have := h.last m' hlt h'.before h'.level
    exact absurd h'.mark (Nat.ne_of_lt this)
  · exact heq
  · have := h'.last m hgt h.before h.level
    exact absurd h.mark (Nat.ne_of_lt this)

/-- The operator of symbols that are two operands with an operator between them, if the right
operand has only operators of lower ranks. -/
def operator? (L : Layers ν τ) : List (Symbol ν τ) → Option τ
  | [.nonterminal x, .terminal t, .nonterminal y] =>
    if (L.outline x).last.all L.ends && !L.ends t && L.shift t = 0 &&
      (L.outline y).top < L.rank t then
      some t
    else none
  | _ => none

theorem operator?_eq_some (h : L.operator? α = some t) :
    ∃ x y, α = [.nonterminal x, .terminal t, .nonterminal y] ∧
      (∀ u ∈ (L.outline x).last, L.ends u = true) ∧
      L.ends t = false ∧ L.shift t = 0 ∧ (L.outline y).top < L.rank t := by
  unfold operator? at h
  split at h
  · rename_i x u y
    split at h
    · rename_i hc
      cases h
      simp only [Bool.and_eq_true, Bool.not_eq_true', decide_eq_true_eq] at hc
      obtain ⟨⟨⟨hlast, hends⟩, hshift⟩, htop⟩ := hc
      exact ⟨x, y, rfl, List.all_eq_true.mp hlast, hends, hshift, htop⟩
    · cases h
  · cases h

theorem splitsAt_operator {x y : ν} (hlast : ∀ u ∈ (L.outline x).last, L.ends u = true)
    (hends : L.ends t = false) (hshift : L.shift t = 0) (htop : (L.outline y).top < L.rank t)
    (hx : L.Reads tokens (.nonterminal x) i j) (ht : tagAt tokens j = some t)
    (hy : L.Reads tokens (.nonterminal y) (j + 1) k) : L.SplitsAt tokens (L.rank t) i k j := by
  have hj : L.level tokens j = L.level tokens i := by
    rw [hx.shift, shiftOf, Int.add_zero]
  have hj' : L.level tokens (j + 1) = L.level tokens i := by
    rw [(reads_terminal ht).shift, shiftOf, hshift, Int.add_zero, hj]
  have hij := hx.lt
  have hjk := hy.lt
  refine ⟨hij, by omega, hj, ?_, ?_⟩
  · obtain ⟨u, hu, hu'⟩ := hx.last
    have hne : j ≠ 0 := by omega
    simp [Signs.mark, hne, hu', hlast u hu, ht]
  · intro m hjm hmk hm
    rcases Nat.eq_or_lt_of_le (Nat.succ_le_of_lt hjm) with rfl | hlt
    · -- Right after the operator no operand has ended.
      have hpos : 0 < L.rank t := Nat.lt_of_le_of_lt (Nat.zero_le _) htop
      simpa [Signs.mark, ht, hends] using hpos
    · exact Nat.lt_of_le_of_lt (hy.marks m hlt hmk (hm.trans hj'.symm)) htop

theorem Tiles.splitsAt_border {x : ν} (hx : L.Reads tokens (.nonterminal x) i j)
    (h : L.Tiles tokens α j k) (ho : L.operator? (.nonterminal x :: α) = some t) :
    tagAt tokens j = some t ∧ L.SplitsAt tokens (L.rank t) i k j := by
  obtain ⟨x', y, he, hlast, hends, hshift, htop⟩ := operator?_eq_some ho
  cases he
  cases h with
  | token ht rest =>
    cases rest with
    | phrase hy rest =>
      cases rest
      exact ⟨ht, splitsAt_operator hlast hends hshift htop hx ht hy⟩

theorem Tiles.splitsAt (h : L.Tiles tokens α i k) (ho : L.operator? α = some t) :
    ∃ m, tagAt tokens m = some t ∧ L.SplitsAt tokens (L.rank t) i k m := by
  obtain ⟨x, y, rfl, -⟩ := operator?_eq_some ho
  cases h with
  | phrase hx rest => exact ⟨_, splitsAt_border hx rest ho⟩

def sureOf (L : Layers ν τ) : List (Symbol ν τ) → Nat
  | [s] => (L.outlineOf s).sure
  | symbols => ((L.operator? symbols).map L.rank).getD 0

theorem Tiles.sure (h : L.Tiles tokens symbols i k) (hs : 0 < L.sureOf symbols) :
    ∃ m, i < m ∧ m < k ∧ L.level tokens m = L.level tokens i ∧
      L.sureOf symbols ≤ L.mark tokens m := by
  unfold sureOf at hs ⊢
  split at hs
  · obtain ⟨j, hreads, hnil⟩ := h.cons
    cases hnil
    exact hreads.sure hs
  · cases ho : L.operator? symbols with
    | none => simp [ho] at hs
    | some t =>
      obtain ⟨m, -, hm⟩ := h.splitsAt ho
      exact ⟨m, hm.after, hm.before, hm.level, by simp [hm.mark]⟩

def accepts [DecidableEq τ] (L : Layers ν τ) (p : Production ν τ ρ) : Bool :=
  match p.rhs with
  | [] => false
  | s :: rest =>
    (L.outlineOf s).first.all (L.outline p.lhs).first.contains &&
      (L.lasts (s :: rest)).all (L.outline p.lhs).last.contains &&
      L.balanced 0 (s :: rest) && L.low (L.outline p.lhs).top (s :: rest) &&
      (L.outline p.lhs).sure ≤ L.sureOf (s :: rest) &&
      (!(L.outline p.lhs).plain || (s :: rest).all fun s => (L.outlineOf s).plain) &&
      (!(L.outline p.lhs).foreign || (s :: rest).any fun s => (L.outlineOf s).foreign)

/-- Pieces that agree with the symbols of a production make a piece that agrees with its
left-hand side. -/
theorem Tiles.reads [DecidableEq τ] {p : Production ν τ ρ} (hp : L.accepts p = true)
    (h : L.Tiles tokens p.rhs i k) : L.Reads tokens (.nonterminal p.lhs) i k := by
  unfold accepts at hp
  split at hp
  · cases hp
  · rename_i s rest hrhs
    rw [hrhs] at h
    simp only [Bool.and_eq_true, Bool.or_eq_true, Bool.not_eq_true', decide_eq_true_eq] at hp
    obtain ⟨⟨⟨⟨⟨⟨hfirst, hlast⟩, hb⟩, hlow⟩, hsure⟩, hplain⟩, hforeign⟩ := hp
    obtain ⟨j, hs, hrest⟩ := h.cons
    obtain ⟨hlevel, habove⟩ := h.balanced hb (b := L.level tokens i) (by omega)
    refine ⟨Nat.lt_of_lt_of_le hs.lt hrest.le, ?_, ?_, ?_, ?_, ?_, ?_, ?_, ?_⟩
    · obtain ⟨t, ht, hi⟩ := hs.first
      exact ⟨t, by simpa [outlineOf] using List.all_eq_true.mp hfirst t ht, hi⟩
    · obtain ⟨t, ht, hk⟩ := h.last (by simp)
      exact ⟨t, by simpa [outlineOf] using List.all_eq_true.mp hlast t ht, hk⟩
    · rw [hlevel, shiftOf, Int.add_zero]
    · exact fun m h₁ h₂ => habove m h₁ (Nat.le_of_lt h₂)
    · exact fun m h₁ h₂ hm => h.mark_le_of_low hb hlow h₁ h₂ hm
    · intro hpos
      obtain ⟨m, h₁, h₂, hm, hle⟩ := h.sure (Nat.lt_of_lt_of_le hpos hsure)
      exact ⟨m, h₁, h₂, hm, Nat.le_trans hsure hle⟩
    · intro ho m h₁ h₂
      rcases hplain with hno | hall
      · rw [outlineOf, hno] at ho
        cases ho
      · exact h.plain (List.all_eq_true.mp hall) h₁ h₂
    · intro ho
      rcases hforeign with hno | hany
      · rw [outlineOf, hno] at ho
        cases ho
      · exact h.foreign (List.any_eq_true.mp hany)

theorem Tiles.of_derives [DecidableEq ν] [DecidableEq τ] {g : Grammar ν τ ρ}
    {trees : List Derivation} (hg : ∀ p ∈ g.productions.toList, L.accepts p = true)
    (h : Derives g tokens symbols trees i k) : L.Tiles tokens symbols i k := by
  induction h with
  | nil => exact .nil
  | token matched rest ih => exact .token matched ih
  | @rule p name symbols children trees i j k produced inner rest ihInner ihRest =>
    obtain ⟨q, hmem, rfl, hrhs⟩ := g.exists_production produced
    rw [hrhs] at ihInner
    exact .phrase (ihInner.reads (hg q hmem)) ihRest

end Layers

end Fabula
