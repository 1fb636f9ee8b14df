import Fabula.Proofs.Grammar.Trees
import Mathlib

namespace Fabula

variable {ν τ ρ : Type} [DecidableEq ν]

structure Constituent where
  production : Nat
  start : Nat
  stop : Nat
  deriving DecidableEq

namespace Derivation

mutual

def width : Derivation → Nat
  | leaf _ => 1
  | node _ children => widthAll children

def widthAll : List Derivation → Nat
  | [] => 0
  | d :: ds => d.width + widthAll ds

end

mutual

/-- The constituents of a derivation that begins at `start`, outer before inner ones. -/
def constituents : Derivation → Nat → List Constituent
  | leaf _, _ => []
  | node production children, start =>
    ⟨production, start, start + widthAll children⟩ :: constituentsAll children start

def constituentsAll : List Derivation → Nat → List Constituent
  | [], _ => []
  | d :: ds, start => d.constituents start ++ constituentsAll ds (start + d.width)

end

theorem constituentsAll_append (ds ds' : List Derivation) (start : Nat) :
    constituentsAll (ds ++ ds') start =
      constituentsAll ds start ++ constituentsAll ds' (start + widthAll ds) := by
  induction ds generalizing start with
  | nil => rfl
  | cons d ds ih =>
    simp only [List.cons_append, constituentsAll, widthAll, ih, List.append_assoc,
      Nat.add_assoc]

theorem constituentsAll_singleton (d : Derivation) (start : Nat) :
    constituentsAll [d] start = d.constituents start := by
  simp only [constituentsAll, List.append_nil]

end Derivation

open Fabula.Derivation

namespace Grammar

def readings (g : Grammar ν τ ρ) (tokens : Array (Token τ)) (c : Constituent) :
    Set (List Derivation) :=
  {children | Derives g tokens (g.rhs c.production) children c.start c.stop}

/-- The constituent can be read in more than one way. -/
def Forks (g : Grammar ν τ ρ) (tokens : Array (Token τ)) (c : Constituent) : Prop :=
  (g.readings tokens c).Nontrivial

/-- None of the constituents forks. -/
def Plain (g : Grammar ν τ ρ) (tokens : Array (Token τ)) (cs : List Constituent) : Prop :=
  ∀ c ∈ cs, ¬g.Forks tokens c

theorem Plain.append {g : Grammar ν τ ρ} {tokens : Array (Token τ)} {cs cs' : List Constituent}
    (h : g.Plain tokens cs) (h' : g.Plain tokens cs') : g.Plain tokens (cs ++ cs') := by
  intro c hc
  rcases List.mem_append.mp hc with hc | hc
  · exact h c hc
  · exact h' c hc

/-- The ways to read a constituent in which nothing forks. -/
def plainReadings (g : Grammar ν τ ρ) (tokens : Array (Token τ)) (c : Constituent) :
    Set (List Derivation) :=
  {children ∈ g.readings tokens c | g.Plain tokens (constituentsAll children c.start)}

/-- The constituent stands in some derivation of the tokens. -/
def TakesPart (g : Grammar ν τ ρ) (root : ν) (tokens : List (Token τ))
    (c : Constituent) : Prop :=
  ∃ d ∈ g.derivations root tokens, c ∈ d.constituents 0

end Grammar

namespace Derives

variable {g : Grammar ν τ ρ} {tokens : Array (Token τ)} {symbols : List (Symbol ν τ)}
  {trees : List Derivation} {i k : Nat} {c : Constituent}

theorem stop_eq (h : Derives g tokens symbols trees i k) : k = i + widthAll trees := by
  induction h with
  | nil => rfl
  | token matched rest ih =>
    simp only [widthAll, width]
    omega
  | rule produced inner rest ihInner ihRest =>
    simp only [widthAll, width]
    omega

theorem constituents_node {p : Nat} {children : List Derivation}
    (h : Derives g tokens symbols children i k) :
    (node p children).constituents i = ⟨p, i, k⟩ :: constituentsAll children i := by
  rw [constituents, h.stop_eq]

theorem start_le (h : Derives g tokens symbols trees i k) (hc : c ∈ constituentsAll trees i) :
    i ≤ c.start := by
  induction h with
  | nil => exact absurd hc List.not_mem_nil
  | token matched rest ih => exact Nat.le_of_succ_le (ih hc)
  | @rule p name symbols children trees i j k produced inner rest ihInner ihRest =>
    have hj : i + (node p children).width = j := inner.stop_eq.symm
    rw [constituentsAll, inner.constituents_node, hj] at hc
    rcases List.mem_append.mp hc with hc | hc
    · rcases List.mem_cons.mp hc with rfl | hc
      · exact Nat.le_refl i
      · exact ihInner hc
    · exact Nat.le_trans inner.le (ihRest hc)

/-- A constituent can be replaced by whatever it can be read as, each reading giving other
trees. -/
theorem replace (h : Derives g tokens symbols trees i k) (hc : c ∈ constituentsAll trees i) :
    ∃ put : List Derivation → List Derivation, Function.Injective put ∧
      ∀ s ∈ g.readings tokens c, Derives g tokens symbols (put s) i k := by
  induction h with
  | nil => exact absurd hc List.not_mem_nil
  | @token tag symbols trees i k matched rest ih =>
    obtain ⟨put, hput, hderives⟩ := ih hc
    refine ⟨fun s => leaf i :: put s, ?_, fun s hs => .token matched (hderives s hs)⟩
    intro s s' hs
    exact hput (List.cons.inj hs).2
  | @rule p name symbols children trees i j k produced inner rest ihInner ihRest =>
    have hj : i + (node p children).width = j := inner.stop_eq.symm
    rw [constituentsAll, inner.constituents_node, hj] at hc
    rcases List.mem_append.mp hc with hc | hc
    · rcases List.mem_cons.mp hc with rfl | hc
      · -- The constituent is this production itself.
        refine ⟨fun s => node p s :: trees, ?_, fun s hs => .rule produced hs rest⟩
        intro s s' hs
        exact (node.inj (List.cons.inj hs).1).2
      · obtain ⟨put, hput, hderives⟩ := ihInner hc
        refine ⟨fun s => node p (put s) :: trees, ?_,
          fun s hs => .rule produced (hderives s hs) rest⟩
        intro s s' hs
        exact hput (node.inj (List.cons.inj hs).1).2
    · obtain ⟨put, hput, hderives⟩ := ihRest hc
      refine ⟨fun s => node p children :: put s, ?_,
        fun s hs => .rule produced inner (hderives s hs)⟩
      intro s s' hs
      exact hput (List.cons.inj hs).2

end Derives

theorem Grammar.TakesPart.encard_readings_le {g : Grammar ν τ ρ} {root : ν}
    {tokens : List (Token τ)} {c : Constituent} (h : g.TakesPart root tokens c) :
    (g.readings tokens.toArray c).encard ≤ (g.derivations root tokens).encard := by
  obtain ⟨d, hd, hc⟩ := h
  have hd : Derives g tokens.toArray [.nonterminal root] [d] 0 tokens.length := hd
  rw [← constituentsAll_singleton] at hc
  obtain ⟨put, hput, hderives⟩ := hd.replace hc
  have hsubset :
      put '' g.readings tokens.toArray c ⊆ (fun d => [d]) '' g.derivations root tokens := by
    rintro _ ⟨s, hs, rfl⟩
    have hput := hderives s hs
    obtain ⟨d', hd'⟩ := List.length_eq_one_iff.mp hput.length_eq
    rw [hd'] at hput
    exact ⟨d', hput, hd'.symm⟩
  calc (g.readings tokens.toArray c).encard
      = (put '' g.readings tokens.toArray c).encard := (hput.encard_image _).symm
    _ ≤ ((fun d => [d]) '' g.derivations root tokens).encard := Set.encard_le_encard hsubset
    _ ≤ (g.derivations root tokens).encard := Set.encard_image_le _ _

end Fabula
