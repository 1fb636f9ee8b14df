import Mathlib.Data.List.Forall2

namespace Fabula

variable {ε α β : Type} {x : Except ε α} {b : β}

theorem bind_eq_ok_iff {f : α → Except ε β} :
    x >>= f = .ok b ↔ ∃ a, x = .ok a ∧ f a = .ok b := by
  cases x with
  | error e => simp [bind, Except.bind]
  | ok a => simp [bind, Except.bind]

theorem map_eq_ok_iff {f : α → β} : x.map f = .ok b ↔ ∃ a, x = .ok a ∧ f a = b := by
  cases x with
  | error e => simp [Except.map]
  | ok a => simp [Except.map]

theorem eq_of_map_eq {f : α → β} (hf : f.Injective) {y : Except ε α} (h : x.map f = y.map f) :
    x = y := by
  cases x with
  | error e =>
    cases y with
    | error e' => exact congrArg _ (Except.error.inj h)
    | ok a => cases h
  | ok a =>
    cases y with
    | error e => cases h
    | ok b => rw [hf (Except.ok.inj h)]

theorem eq_ok_of_mapError {ε' : Type} {a : α} {f : ε → ε'} (h : x.mapError f = .ok a) :
    x = .ok a := by
  cases x with
  | error e => cases h
  | ok a =>
    cases h
    rfl

theorem mapM_eq_ok_iff {ε α β : Type} {f : α → Except ε β} {xs : List α} {ys : List β} :
    xs.mapM f = .ok ys ↔ List.Forall₂ (fun x y => f x = .ok y) xs ys := by
  induction xs generalizing ys with
  | nil =>
    constructor
    · rintro ⟨⟩
      exact .nil
    · rintro ⟨⟩
      rfl
  | cons x xs ih =>
    rw [List.mapM_cons, bind_eq_ok_iff]
    constructor
    · rintro ⟨y, hy, h⟩
      obtain ⟨ys', hys, h⟩ := bind_eq_ok_iff.mp h
      cases h
      exact .cons hy (ih.mp hys)
    · rintro (_ | ⟨hy, hys⟩)
      exact ⟨_, hy, bind_eq_ok_iff.mpr ⟨_, ih.mpr hys, rfl⟩⟩

theorem mapM_eq_error_iff {ε α β : Type} {f : α → Except ε β} {xs : List α} {e : ε} :
    xs.mapM f = .error e ↔ ∃ front x rest, xs = front ++ x :: rest ∧ f x = .error e ∧
      ∀ y ∈ front, ∃ z, f y = .ok z := by
  constructor
  · intro h
    induction xs with
    | nil => cases h
    | cons x xs ih =>
      rw [List.mapM_cons] at h
      cases hx : f x with
      | error e' =>
        rw [hx] at h
        cases h
        exact ⟨[], x, xs, rfl, hx, by simp⟩
      | ok z =>
        rw [hx] at h
        cases hxs : xs.mapM f with
        | ok zs => simp [hxs, bind, Except.bind, pure, Except.pure] at h
        | error e' =>
          rw [hxs] at h
          cases h
          obtain ⟨front, y, rest, rfl, hy, hfront⟩ := ih hxs
          exact ⟨x :: front, y, rest, rfl, hy, List.forall_mem_cons.mpr ⟨⟨z, hx⟩, hfront⟩⟩
  · rintro ⟨front, x, rest, rfl, hx, hfront⟩
    induction front with
    | nil =>
      rw [List.nil_append, List.mapM_cons, hx]
      rfl
    | cons y front ih =>
      obtain ⟨⟨z, hz⟩, hfront⟩ := List.forall_mem_cons.mp hfront
      rw [List.cons_append, List.mapM_cons, hz, ih hfront]
      rfl

theorem foldlM_preserves {ε α β : Type} {f : β → α → Except ε β} {P : β → Prop} {xs : List α}
    {state last : β} (hstep : ∀ x ∈ xs, ∀ s s', P s → f s x = .ok s' → P s') (hstate : P state)
    (h : xs.foldlM f state = .ok last) : P last := by
  induction xs generalizing state with
  | nil =>
    cases h
    exact hstate
  | cons x xs ih =>
    rw [List.foldlM_cons] at h
    obtain ⟨next, hnext, h⟩ := bind_eq_ok_iff.mp h
    apply ih _ (hstep x List.mem_cons_self state next hstate hnext) h
    intro y hy
    exact hstep y (List.mem_cons_of_mem _ hy)

section Pairs

variable {R : α → β → Prop} {xs : List α} {ys : List β}

theorem exists_getElem?_of_forall₂ (h : List.Forall₂ R xs ys) {i : Nat} {x : α}
    (hi : xs[i]? = some x) : ∃ y, ys[i]? = some y ∧ R x y := by
  induction h generalizing i with
  | nil => simp at hi
  | cons hy _ ih =>
    cases i with
    | zero =>
      cases hi
      exact ⟨_, rfl, hy⟩
    | succ i => exact ih hi

theorem exists_mem_of_forall₂ (h : List.Forall₂ R xs ys) {y : β} (hy : y ∈ ys) :
    ∃ x ∈ xs, R x y := by
  induction h with
  | nil => simp at hy
  | cons hx _ ih =>
    rcases List.mem_cons.mp hy with rfl | hy
    · exact ⟨_, List.mem_cons_self, hx⟩
    · obtain ⟨x, hmem, hx⟩ := ih hy
      exact ⟨x, List.mem_cons_of_mem _ hmem, hx⟩

end Pairs

section Traversal

variable {f : α → Except ε β} {xs : List α} {ys : List β}

/-- A second traversal over the results of a first one is a traversal of its own, if each of its
steps is. -/
theorem mapM_of_mapM {γ : Type} {g : β → Except ε γ} {k : α → Except ε γ}
    (h : xs.mapM f = .ok ys) (hg : ∀ x y, f x = .ok y → g y = k x) : ys.mapM g = xs.mapM k := by
  replace h := mapM_eq_ok_iff.mp h
  induction h with
  | nil => rfl
  | cons hy _ ih => rw [List.mapM_cons, List.mapM_cons, hg _ _ hy, ih]

end Traversal

inductive Parallel {ε ε' α β : Type} (R : α → β → Prop) : Except ε α → Except ε' β → Prop where
  | ok {a : α} {b : β} (related : R a b) : Parallel R (.ok a) (.ok b)
  | error (e : ε) (e' : ε') : Parallel R (.error e) (.error e')

namespace Parallel

variable {ε ε' δ δ' α β γ γ' : Type} {R : α → β → Prop} {S : γ → γ' → Prop} {x : Except ε α}
  {y : Except ε' β}

theorem bind {f : α → Except ε γ} {g : β → Except ε' γ'} (h : Parallel R x y)
    (hf : ∀ a b, R a b → Parallel S (f a) (g b)) : Parallel S (x >>= f) (y >>= g) := by
  cases h with
  | ok related => exact hf _ _ related
  | error e e' => exact .error e e'

theorem map {f : α → γ} {g : β → γ'} (h : Parallel R x y) (hf : ∀ a b, R a b → S (f a) (g b)) :
    Parallel S (x.map f) (y.map g) := by
  cases h with
  | ok related => exact .ok (hf _ _ related)
  | error e e' => exact .error e e'

theorem of_map {f : α → γ} {g : β → γ'} (h : Parallel S (x.map f) (y.map g))
    (hf : ∀ a b, S (f a) (g b) → R a b) : Parallel R x y := by
  cases x with
  | error e =>
    cases y with
    | error e' => exact .error e e'
    | ok b => cases h
  | ok a =>
    cases y with
    | error e' => cases h
    | ok b =>
      cases h with
      | ok related => exact .ok (hf a b related)

theorem mapError (h : Parallel R x y) (f : ε → δ) (g : ε' → δ') :
    Parallel R (x.mapError f) (y.mapError g) := by
  cases h with
  | ok related => exact .ok related
  | error e e' => exact .error (f e) (g e')

/-- What the first computation is known to give can be added to the relation. -/
theorem and_left {P : α → Prop} (h : Parallel R x y) (hx : ∀ a, x = .ok a → P a) :
    Parallel (fun a b => R a b ∧ P a) x y := by
  cases h with
  | ok related => exact .ok ⟨related, hx _ rfl⟩
  | error e e' => exact .error e e'

theorem map_right (x : Except ε α) (f : α → β) : Parallel (fun a b => b = f a) x (x.map f) := by
  cases x with
  | error e => exact .error e e
  | ok a => exact .ok rfl

theorem refl (x : Except ε α) : Parallel Eq x x := by
  cases x with
  | error e => exact .error e e
  | ok a => exact .ok rfl

theorem toOption_eq {y : Except ε' α} (h : Parallel Eq x y) : x.toOption = y.toOption := by
  cases h with
  | ok related => rw [related]; rfl
  | error e e' => rfl

theorem toOption_map {f : α → β} (h : Parallel (fun a b => b = f a) x y) :
    y.toOption = x.toOption.map f := by
  cases h with
  | ok related => rw [related]; rfl
  | error e e' => rfl

end Parallel

end Fabula
