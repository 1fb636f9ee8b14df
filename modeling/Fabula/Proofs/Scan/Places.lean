import Fabula.Proofs.Outcome
import Fabula.Scan

namespace Fabula

namespace Place

variable {p q r : Place} {s t : List Char} {c : Char}

structure Passes (p : Place) (text : List Char) (q : Place) : Prop where
  after : p.after = text ++ q.after
  before : q.before = text.getLast?.or p.before

theorem next?_eq_some (h : p.next? = some (c, q)) : p.after = c :: q.after := by
  unfold next? at h
  split at h
  · cases h
  · rename_i hafter
    cases h
    exact hafter

theorem after_eq_nil (h : p.next? = none) : p.after = [] := by
  unfold next? at h
  split at h
  · assumption
  · cases h

theorem end_or_next (p : Place) : p.after = [] ∨ ∃ c q, p.next? = some (c, q) := by
  cases h : p.next? with
  | none => exact .inl (after_eq_nil h)
  | some found => exact .inr ⟨found.1, found.2, rfl⟩

theorem eq_of_sides (hb : p.before = q.before) (ha : p.after = q.after) : p = q := by
  obtain ⟨before, after, left, hleft⟩ := p
  obtain ⟨before', after', left', hleft'⟩ := q
  cases hb
  cases ha
  cases hleft
  cases hleft'
  rfl

namespace Passes

theorem refl (p : Place) : p.Passes [] p := ⟨rfl, rfl⟩

theorem trans (h : p.Passes s q) (h' : q.Passes t r) : p.Passes (s ++ t) r := by
  refine ⟨by rw [h.after, h'.after, List.append_assoc], ?_⟩
  rw [h'.before, h.before, List.getLast?_append, Option.or_assoc]

theorem next (h : p.next? = some (c, q)) : p.Passes [c] q := by
  refine ⟨next?_eq_some h, ?_⟩
  unfold next? at h
  split at h
  · cases h
  · cases h
    rfl

theorem last (p : Place) : p.Passes p.after p.last := ⟨(List.append_nil _).symm, rfl⟩

theorem left_eq (h : p.Passes s q) : p.left = s.length + q.left := by
  rw [p.left_eq, q.left_eq, h.after, List.length_append]

theorem upTo_eq (h : p.Passes s q) : p.upTo q = s := by
  rw [upTo, h.left_eq, h.after]
  simp

theorem unique (h : p.Passes s q) (h' : p.Passes s r) : q = r := by
  apply eq_of_sides
  · rw [h.before, h'.before]
  · exact List.append_cancel_left (h.after.symm.trans h'.after)

theorem left_lt_iff (h : p.Passes s q) : q.left < p.left ↔ s ≠ [] := by
  rw [h.left_eq, ← List.length_pos_iff]
  omega

theorem next?_eq (h : p.Passes [c] q) : p.next? = some (c, q) := by
  rcases p.end_or_next with hend | ⟨d, r, hnext⟩
  · rw [h.after] at hend
    cases hend
  · have hr := Passes.next hnext
    obtain ⟨rfl, -⟩ := List.cons.inj (h.after.symm.trans hr.after)
    rw [hnext, hr.unique h]

theorem split (h : p.Passes (s ++ t) r) : ∃ q, p.Passes s q ∧ q.Passes t r := by
  refine ⟨⟨s.getLast?.or p.before, t ++ r.after, _, rfl⟩, ⟨?_, rfl⟩, rfl, ?_⟩
  · rw [h.after, List.append_assoc]
  · rw [h.before, List.getLast?_append, Option.or_assoc]

end Passes

def In (p : Place) (source : List Char) : Prop := ∃ s, (start source).Passes s p

theorem In.trans {source : List Char} (h : p.In source) (hq : p.Passes s q) : q.In source := by
  obtain ⟨t, ht⟩ := h
  exact ⟨t ++ s, ht.trans hq⟩

end Place

namespace Pattern

variable {α : Type} {p q : Place} {k : Place → Option α} {a : α} {pattern : Pattern}

theorem run_char {c : Char} (h : (char c).run p k = some a) :
    ∃ q, p.after = c :: q.after ∧ k q = some a := by
  rw [char, run] at h
  split at h
  · cases h
  · rename_i d q hnext
    split at h
    · rename_i hd
      rw [beq_iff_eq] at hd
      exact ⟨q, hd ▸ Place.next?_eq_some hnext, h⟩
    · cases h

theorem run_text {cs : List Char} (h : (text cs).run p k = some a) :
    ∃ q, p.after = cs ++ q.after ∧ k q = some a := by
  fun_induction text cs generalizing p with
  | case1 => exact ⟨p, rfl, h⟩
  | case2 c => exact run_char h
  | case3 c cs hne ih =>
    obtain ⟨between, hc, h⟩ := run_char h
    obtain ⟨q, hcs, hq⟩ := ih h
    exact ⟨q, by rw [hc, hcs]; rfl, hq⟩

theorem upTo_of_match_lit {s : String} (h : (lit s).match? p = some q) :
    p.upTo q = s.toList := by
  obtain ⟨q', hafter, hq⟩ := run_text h
  cases hq
  rw [Place.upTo, p.left_eq, q.left_eq, hafter]
  simp

def Rounds (takes : List Char → Prop) (text : List Char) : Prop :=
  ∃ parts : List (List Char), (∀ part ∈ parts, takes part) ∧ text = parts.flatten

/-- The texts that a pattern can take, whatever stands around them. -/
def Takes : Pattern → List Char → Prop
  | empty, text => text = []
  | one accepts, text => ∃ c, accepts c = true ∧ text = [c]
  | check _, text => text = []
  | seq first second, text => ∃ s t, first.Takes s ∧ second.Takes t ∧ text = s ++ t
  | alt first second, text => first.Takes text ∨ second.Takes text
  | star _ body, text => Rounds body.Takes text

theorem Rounds.nil (takes : List Char → Prop) : Rounds takes [] := ⟨[], by simp, rfl⟩

theorem Rounds.cons {takes : List Char → Prop} {s t : List Char} (hs : takes s)
    (ht : Rounds takes t) : Rounds takes (s ++ t) := by
  obtain ⟨parts, hparts, rfl⟩ := ht
  refine ⟨s :: parts, ?_, rfl⟩
  intro part hpart
  rcases List.mem_cons.mp hpart with rfl | hpart
  · exact hs
  · exact hparts part hpart

/-- A way of matching takes a text before it goes on. -/
def Advances (takes : List Char → Prop) (run : Place → (Place → Option α) → Option α) : Prop :=
  ∀ p k a, run p k = some a → ∃ text q, takes text ∧ p.Passes text q ∧ k q = some a

theorem advances_rounds {greedy : Bool} {takes : List Char → Prop}
    {body : Place → (Place → Option α) → Option α} (hbody : Advances takes body) (n : Nat) :
    Advances (Rounds takes) (rounds greedy body n) := by
  induction n with
  | zero => exact fun p k a h => ⟨[], p, .nil takes, .refl p, h⟩
  | succ n ih =>
    intro p k a h
    have hmore (h :
        (body p fun q => if q.left < p.left then rounds greedy body n q k else k q) = some a) :
        ∃ text q, Rounds takes text ∧ p.Passes text q ∧ k q = some a := by
      obtain ⟨s, q, hs, hq, h⟩ := hbody _ _ _ h
      split at h
      · obtain ⟨t, r, ht, hr, h⟩ := ih q k a h
        exact ⟨s ++ t, r, ht.cons hs, hq.trans hr, h⟩
      · refine ⟨s, q, ?_, hq, h⟩
        have hround := (Rounds.nil takes).cons hs
        rwa [List.append_nil] at hround
    rw [rounds] at h
    simp only [Option.orElse_eq_or] at h
    split at h
    · rcases Option.or_eq_some_iff.mp h with h | ⟨-, h⟩
      · exact hmore h
      · exact ⟨[], p, .nil takes, .refl p, h⟩
    · rcases Option.or_eq_some_iff.mp h with h | ⟨-, h⟩
      · exact ⟨[], p, .nil takes, .refl p, h⟩
      · exact hmore h

/-- A match goes on from a later place of the same text, behind a text that the pattern can
take. -/
theorem advances_run (pattern : Pattern) : Advances (α := α) pattern.Takes pattern.run := by
  induction pattern with
  | empty => exact fun p k a h => ⟨[], p, rfl, .refl p, h⟩
  | one accepts =>
    intro p k a h
    rw [run] at h
    split at h
    · cases h
    · rename_i c q hnext
      split at h
      · rename_i hc
        exact ⟨[c], q, ⟨c, hc, rfl⟩, .next hnext, h⟩
      · cases h
  | check holds =>
    intro p k a h
    rw [run] at h
    split at h
    · exact ⟨[], p, rfl, .refl p, h⟩
    · cases h
  | seq first second ihf ihs =>
    intro p k a h
    obtain ⟨s, q, hs, hq, h⟩ := ihf _ _ _ h
    obtain ⟨t, r, ht, hr, h⟩ := ihs _ _ _ h
    exact ⟨s ++ t, r, ⟨s, t, hs, ht, rfl⟩, hq.trans hr, h⟩
  | alt first second ihf ihs =>
    intro p k a h
    rw [run, Option.orElse_eq_or] at h
    rcases Option.or_eq_some_iff.mp h with h | ⟨-, h⟩
    · obtain ⟨text, q, htext, h⟩ := ihf _ _ _ h
      exact ⟨text, q, .inl htext, h⟩
    · obtain ⟨text, q, htext, h⟩ := ihs _ _ _ h
      exact ⟨text, q, .inr htext, h⟩
  | star greedy body ih => exact fun p k a h => advances_rounds ih _ p k a h

/-- A match stops at its place or later in the same text. -/
theorem passes_of_match (h : pattern.match? p = some q) : ∃ text, p.Passes text q := by
  obtain ⟨text, q', -, hq, h⟩ := advances_run pattern _ _ _ h
  cases h
  exact ⟨text, hq⟩

theorem takes_of_match (h : pattern.match? p = some q) : pattern.Takes (p.upTo q) := by
  obtain ⟨text, r, htext, hr, heq⟩ := advances_run pattern _ _ _ h
  cases heq
  rwa [hr.upTo_eq]

/-- At the end of the text no round is made of a body that takes something. -/
theorem rounds_end {greedy : Bool} {body : Pattern} {n : Nat}
    (hne : ∀ text, body.Takes text → text ≠ []) (hp : p.after = []) :
    rounds greedy (fun q l => body.run q l) n p k = k p := by
  cases n with
  | zero => rfl
  | succ n =>
    have hnone (l : Place → Option α) : body.run p l = none := by
      cases hrun : body.run p l with
      | none => rfl
      | some a =>
        obtain ⟨text, q, htakes, hpasses, -⟩ := advances_run body _ _ _ hrun
        rw [hpasses.after] at hp
        exact absurd (List.append_eq_nil_iff.mp hp).1 (hne text htakes)
    rw [rounds]
    simp only [hnone, Option.orElse_eq_or, Option.none_or, Option.or_none, ite_self]

section Following

variable {g : Place → Place} {valid : Place → Prop} {first second body : Pattern}

/-- A pattern goes the same way from the image of a place as from the place, as long as what
comes after it does. -/
def Follows (g : Place → Place) (valid : Place → Prop) (pattern : Pattern) : Prop :=
  ∀ (α β : Type) (f : α → β) (p : Place) (k : Place → Option α) (k' : Place → Option β),
    valid p →
    (∀ text q, pattern.Takes text → p.Passes text q → k' (g q) = (k q).map f) →
      pattern.run (g p) k' = (pattern.run p k).map f

theorem follows_empty : Follows g valid empty :=
  fun _ _ _ p _ _ _ h => h [] p rfl (.refl p)

theorem Follows.seq (hvalid : ∀ p text q, valid p → p.Passes text q → valid q)
    (hf : Follows g valid first) (hs : Follows g valid second) :
    Follows g valid (seq first second) := by
  intro α β f p k k' hp h
  apply hf α β f p _ _ hp
  intro s q ht hq
  apply hs α β f q k k' (hvalid p s q hp hq)
  intro t r hu hr
  exact h (s ++ t) r ⟨s, t, ht, hu, rfl⟩ (hq.trans hr)

theorem Follows.alt (hf : Follows g valid first) (hs : Follows g valid second) :
    Follows g valid (alt first second) := by
  intro α β f p k k' hp h
  rw [run, run, Option.orElse_eq_or, Option.orElse_eq_or, Option.map_or,
    hf α β f p k k' hp fun text q ht => h text q (.inl ht),
    hs α β f p k k' hp fun text q ht => h text q (.inr ht)]

theorem Follows.match? (h : Follows g valid pattern) (hp : valid p) :
    pattern.match? (g p) = (pattern.match? p).map g :=
  h _ _ g p some some hp fun _ _ _ _ => rfl

/-- Rounds are followed too, if each takes something on either side. -/
theorem Follows.rounds {greedy : Bool}
    (hvalid : ∀ p text q, valid p → p.Passes text q → valid q)
    (hend : ∀ p, (g p).after = [] ↔ p.after = []) (hb : Follows g valid body)
    (hne : ∀ text, body.Takes text → text ≠ [])
    (hlt : ∀ p text q, body.Takes text → p.Passes text q → (g q).left < (g p).left) {β : Type}
    {f : α → β} {n n' : Nat} {k' : Place → Option β} (hn : p.left ≤ n) (hn' : (g p).left ≤ n')
    (hp : valid p)
    (h : ∀ text q, Rounds body.Takes text → p.Passes text q → k' (g q) = (k q).map f) :
    Pattern.rounds greedy (fun q l => body.run q l) n' (g p) k' =
      (Pattern.rounds greedy (fun q l => body.run q l) n p k).map f := by
  have hhere : k' (g p) = (k p).map f := h [] p (.nil _) (.refl p)
  induction n generalizing p n' with
  | zero =>
    have hafter : p.after = [] := List.length_eq_zero_iff.mp (by rw [← p.left_eq]; omega)
    rw [rounds_end hne hafter, rounds_end hne ((hend p).mpr hafter), hhere]
  | succ n ih =>
    by_cases hafter : p.after = []
    · rw [rounds_end hne hafter, rounds_end hne ((hend p).mpr hafter), hhere]
    · cases n' with
      | zero =>
        have hnil : (g p).after = [] :=
          List.length_eq_zero_iff.mp (by rw [← (g p).left_eq]; omega)
        exact absurd ((hend p).mp hnil) hafter
      | succ n' =>
        -- Each round takes something, so that the number of rounds left is enough on both
        -- sides.
        have hmore := hb α β f p
          (fun q => if q.left < p.left then
            Pattern.rounds greedy (fun q l => body.run q l) n q k else k q)
          (fun q => if q.left < (g p).left then
            Pattern.rounds greedy (fun q l => body.run q l) n' q k' else k' q) hp
          (fun s q hs hq => by
            have hleft := hq.left_eq
            have hpos := List.length_pos_iff.mpr (hne s hs)
            have hlt' := hlt p s q hs hq
            have hrest :
                ∀ text r, Rounds body.Takes text → q.Passes text r → k' (g r) = (k r).map f :=
              fun t r ht hr => h (s ++ t) r (ht.cons hs) (hq.trans hr)
            have hshort : q.left < p.left := by omega
            rw [if_pos hlt', if_pos hshort]
            exact ih (by omega) (by omega) (hvalid p s q hp hq) hrest
              (hrest [] q (.nil _) (.refl q)))
        rw [Pattern.rounds, Pattern.rounds]
        simp only [Option.orElse_eq_or, hmore, hhere]
        split
        · rw [Option.map_or]
        · rw [Option.map_or]

theorem Follows.star {greedy : Bool} (hvalid : ∀ p text q, valid p → p.Passes text q → valid q)
    (hend : ∀ p, (g p).after = [] ↔ p.after = []) (hb : Follows g valid body)
    (hne : ∀ text, body.Takes text → text ≠ [])
    (hlt : ∀ p text q, body.Takes text → p.Passes text q → (g q).left < (g p).left) :
    Follows g valid (star greedy body) :=
  fun _ _ _ _ _ _ hp h =>
    Follows.rounds hvalid hend hb hne hlt (Nat.le_refl _) (Nat.le_refl _) hp h

end Following

end Pattern

end Fabula
