import Mathlib
import Fabula.Proofs.Scan.Boundaries

namespace Fabula

namespace Pattern

variable {α : Type} {p q : Place} {k : Place → Option α} {accepts : Char → Bool}
  {text : List Char} {n : Nat}
  {body : Place → (Place → Option α) → Option α}

theorem run_one_refused (h : ∀ c ∈ p.after.head?, accepts c = false) :
    (one accepts).run p k = none := by
  rcases p.end_or_next with hend | ⟨c, q, hnext⟩
  · exact run_one_end hend
  · have hc : accepts c = false := h c (by simp [(Place.Passes.next hnext).after])
    rw [run_one hnext, hc]
    rfl

theorem run_one_accepted {c : Char} (hp : p.Passes [c] q) (hc : accepts c = true) :
    (one accepts).run p k = k q := by
  rw [run_one hp.next?_eq, if_pos hc]

theorem rounds_stop (h : ∀ l, body p l = none) (n : Nat) : rounds true body n p k = k p := by
  cases n with
  | zero => rfl
  | succ n => simp [rounds, h]

/-- A greedy repetition makes a round that it can make, if it can go on behind it. -/
theorem rounds_step (hround : ∀ l, (l q).isSome → body p l = l q) (hlt : q.left < p.left)
    (hrest : (rounds true body n q k).isSome) :
    rounds true body (n + 1) p k = rounds true body n q k := by
  have hgo : body p (fun r => if r.left < p.left then rounds true body n r k else k r) =
      rounds true body n q k := by
    rw [hround _ (by rwa [if_pos hlt]), if_pos hlt]
  obtain ⟨a, ha⟩ := Option.isSome_iff_exists.mp hrest
  rw [rounds]
  simp only [hgo, ha, if_true]
  rfl

theorem run_many_one (hp : p.Passes text q) (htext : ∀ c ∈ text, accepts c = true)
    (hq : ∀ c ∈ q.after.head?, accepts c = false) (hk : (k q).isSome) :
    (many (one accepts)).run p k = k q := by
  have hrounds (n : Nat) (hn : text.length ≤ n) :
      rounds true (fun q l => (one accepts).run q l) n p k = k q := by
    induction text generalizing p n with
    | nil =>
      cases hp.unique (.refl p)
      exact rounds_stop (fun l => run_one_refused hq) n
    | cons c text ih =>
      obtain ⟨hc, htext⟩ := List.forall_mem_cons.mp htext
      obtain ⟨m, hm, hrest⟩ := Place.Passes.split (s := [c]) hp
      cases n with
      | zero => cases hn
      | succ n =>
        have hlater := ih hrest htext n (Nat.le_of_succ_le_succ hn)
        rw [rounds_step (fun l _ => run_one_accepted hm hc) (hm.left_lt_iff.mpr (by simp))
          (by rwa [hlater]), hlater]
  apply hrounds
  rw [hp.left_eq]
  omega

theorem run_some1_one (hp : p.Passes text q) (hne : text ≠ [])
    (htext : ∀ c ∈ text, accepts c = true) (hq : ∀ c ∈ q.after.head?, accepts c = false)
    (hk : (k q).isSome) : (some1 (one accepts)).run p k = k q := by
  obtain ⟨c, text, rfl⟩ := List.exists_cons_of_ne_nil hne
  obtain ⟨hc, htext⟩ := List.forall_mem_cons.mp htext
  obtain ⟨m, hm, hrest⟩ := Place.Passes.split (s := [c]) hp
  rw [some1, run, run_one_accepted hm hc]
  exact run_many_one hrest htext hq hk

end Pattern

namespace Table

variable {τ : Type} {table : Table τ} {rule : Rule τ} {p stop : Place}

theorem scanFrom_of_wins (hp : p.left ≠ 0) (h : Wins table.rules p rule stop) (lenient : Bool)
    (budget offset : Nat) (out : Array (Token τ)) :
    table.scanner.scanFrom lenient (budget + 1) offset p out =
      table.scanner.scanFrom lenient budget (offset + Stretch.bytes (p.upTo stop)) stop
        (out ++ ((Stretch.claimed rule.effect (p.upTo stop)).token? offset).toList) := by
  have hemit : Scanner.emit lenient offset out (.claimed rule.effect (p.upTo stop)) =
      Scanner.emit true offset out (.claimed rule.effect (p.upTo stop)) := rfl
  rw [Scanner.scanFrom, if_neg hp, step_of_wins h]
  simp only [List.foldlM_cons, List.foldlM_nil, hemit, Scanner.emit_lenient, Stretch.text]
  rfl

end Table

end Fabula
