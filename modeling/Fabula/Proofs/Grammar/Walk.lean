import Fabula.Grammar.Forest
import Fabula.Proofs.Grammar.Additions
import Mathlib

namespace Fabula

namespace Forest

variable {chart : Chart} {f f' f'' : Forest} {a b : Address} {s : Status} {e : Entry}
  {tasks more : List Task}

theorem trees_states (f : Forest) (chart : Chart) (a : Address) :
    (f.trees chart a).2.states = f.states := by
  unfold trees
  split
  · rfl
  · simp only
    split <;> rfl

theorem pieces_states (f : Forest) (chart : Chart) (p : Piece) :
    (f.pieces chart p).2.states = f.states := by
  cases p with
  | token column => rfl
  | item a => exact trees_states f chart a

theorem combine_states (chart : Chart) (links : List Link) (found : List Sequence)
    (f : Forest) : (combine chart links found f).2.states = f.states := by
  induction links generalizing found f with
  | nil => rfl
  | cons l links ih =>
    unfold combine
    split
    · rfl
    · exact (ih _ _).trans (pieces_states f chart l.piece)

/-- What one task does: the tasks that come before all others now, and the forest after it. -/
def step (chart : Chart) (f : Forest) : Task → List Task × Forest
  | .visit a =>
    match f.status a, chart.entryAt? a with
    | .fresh, some e =>
      if e.item.dot = 0 then ([], f.setStatus a (.resolved [[]]))
      else (e.links.flatMap Link.visits ++ [.finish a], f.setStatus a .active)
    | _, _ => ([], f)
  | .finish a =>
    match chart.entryAt? a with
    | none => ([], f)
    | some e =>
      ([], (combine chart e.links [] f).2.setStatus a
        (.resolved (combine chart e.links [] f).1))

theorem step_visit_known (h : f.status a ≠ .fresh) : step chart f (.visit a) = ([], f) := by
  simp only [step]
  split
  · contradiction
  · rfl

theorem step_visit_missing (ha : chart.entryAt? a = none) :
    step chart f (.visit a) = ([], f) := by
  simp only [step, ha]
  cases f.status a <;> rfl

theorem step_visit_begun (ha : chart.entryAt? a = some e) (h : f.status a = .fresh)
    (hd : e.item.dot = 0) : step chart f (.visit a) = ([], f.setStatus a (.resolved [[]])) := by
  simp only [step, h, ha, hd, if_true]

theorem step_visit_enter (ha : chart.entryAt? a = some e) (h : f.status a = .fresh)
    (hd : e.item.dot ≠ 0) :
    step chart f (.visit a) =
      (e.links.flatMap Link.visits ++ [.finish a], f.setStatus a .active) := by
  simp only [step, h, ha, hd, if_false]

theorem step_finish_missing (ha : chart.entryAt? a = none) :
    step chart f (.finish a) = ([], f) := by
  simp only [step, ha]

theorem step_finish (ha : chart.entryAt? a = some e) :
    step chart f (.finish a) =
      ([], (combine chart e.links [] f).2.setStatus a
        (.resolved (combine chart e.links [] f).1)) := by
  simp only [step, ha]

/-- What a task can do: nothing, settle an entry, or enter a fresh one. -/
theorem step_cases (chart : Chart) (f : Forest) (t : Task) :
    step chart f t = ([], f) ∨
      (∃ a e, ∃ f' : Forest, ∃ found, chart.entryAt? a = some e ∧ f'.states = f.states ∧
        step chart f t = ([], f'.setStatus a (.resolved found))) ∨
      ∃ a e, chart.entryAt? a = some e ∧ f.status a = .fresh ∧
        step chart f t =
          (e.links.flatMap Link.visits ++ [.finish a], f.setStatus a .active) := by
  cases t with
  | visit a =>
    cases ha : chart.entryAt? a with
    | none => exact .inl (step_visit_missing ha)
    | some e =>
      by_cases hs : f.status a = .fresh
      · by_cases hd : e.item.dot = 0
        · exact .inr (.inl ⟨a, e, f, _, ha, rfl, step_visit_begun ha hs hd⟩)
        · exact .inr (.inr ⟨a, e, ha, hs, step_visit_enter ha hs hd⟩)
      · exact .inl (step_visit_known hs)
  | finish a =>
    cases ha : chart.entryAt? a with
    | none => exact .inl (step_finish_missing ha)
    | some e =>
      exact .inr (.inl ⟨a, e, _, _, ha, combine_states chart e.links [] f, step_finish ha⟩)

theorem run_succ (chart : Chart) (n : Nat) (t : Task) (tasks : List Task) (f : Forest) :
    run chart (n + 1) (t :: tasks) f =
      run chart n ((step chart f t).1 ++ tasks) (step chart f t).2 := by
  cases t with
  | visit a =>
    cases ha : chart.entryAt? a with
    | none =>
      rw [step_visit_missing ha]
      simp only [run, ha, List.nil_append]
      cases f.status a <;> rfl
    | some e =>
      by_cases hs : f.status a = .fresh
      · by_cases hd : e.item.dot = 0
        · rw [step_visit_begun ha hs hd]
          simp only [run, hs, ha, hd, if_true, List.nil_append]
        · rw [step_visit_enter ha hs hd]
          simp only [run, hs, ha, hd, if_false, List.append_assoc, List.singleton_append]
      · rw [step_visit_known hs]
        simp only [run, List.nil_append]
        split
        · contradiction
        · rfl
  | finish a =>
    cases ha : chart.entryAt? a with
    | none =>
      rw [step_finish_missing ha]
      simp only [run, ha, List.nil_append]
    | some e =>
      rw [step_finish ha]
      simp only [run, ha, List.nil_append]

/-- The walk carries out the tasks and turns the first forest into the second. -/
inductive Resolves (chart : Chart) : List Task → Forest → Forest → Prop where
  | nil {f : Forest} : Resolves chart [] f f
  | cons {t : Task} {tasks : List Task} {f f' : Forest}
      (rest : Resolves chart ((step chart f t).1 ++ tasks) (step chart f t).2 f') :
      Resolves chart (t :: tasks) f f'

namespace Resolves

theorem next {t : Task} (h : Resolves chart (t :: tasks) f f') :
    Resolves chart ((step chart f t).1 ++ tasks) (step chart f t).2 f' := by
  cases h with
  | cons rest => exact rest

theorem split (h : Resolves chart (tasks ++ more) f f'') :
    ∃ f', Resolves chart tasks f f' ∧ Resolves chart more f' f'' := by
  obtain ⟨all, he⟩ : ∃ all, all = tasks ++ more := ⟨_, rfl⟩
  rw [← he] at h
  induction h generalizing tasks with
  | nil =>
    obtain ⟨rfl, rfl⟩ := List.append_eq_nil_iff.mp he.symm
    exact ⟨_, .nil, .nil⟩
  | @cons t rest f f'' hr ih =>
    cases tasks with
    | nil =>
      obtain rfl : t :: rest = more := he
      exact ⟨f, .nil, .cons hr⟩
    | cons t' tasks =>
      obtain ⟨rfl, rfl⟩ := List.cons_eq_cons.mp he
      obtain ⟨f', h₁, h₂⟩ := ih (List.append_assoc _ tasks more).symm
      exact ⟨f', .cons h₁, h₂⟩

end Resolves

section Status

/-- The forest has a place for the status of every entry of the chart. -/
def Fits (chart : Chart) (f : Forest) : Prop :=
  ∀ a e, chart.entryAt? a = some e → a.index < (f.states.getD a.column #[]).size

theorem status_setStatus_of_ne (h : b ≠ a) : (f.setStatus a s).status b = f.status b := by
  obtain ⟨c, i⟩ := a
  obtain ⟨d, j⟩ := b
  by_cases hc : c = d
  · subst hc
    have hij : i ≠ j := by
      rintro rfl
      exact h rfl
    simp only [status, setStatus, Array.getD_eq_getD_getElem?, Array.getElem?_modify, if_true]
    cases f.states[c]? with
    | none => rfl
    | some column => simp [hij]
  · simp [status, setStatus, Array.getElem?_modify, hc]

theorem status_setStatus_self (hf : f.Fits chart) (ha : chart.entryAt? a = some e) :
    (f.setStatus a s).status a = s := by
  have hi := hf a e ha
  obtain ⟨c, i⟩ := a
  simp only [status, setStatus, Array.getD_eq_getD_getElem?, Array.getElem?_modify,
    if_true] at hi ⊢
  cases hc : f.states[c]? with
  | none => simp [hc] at hi
  | some column =>
    rw [hc] at hi
    simp only [Option.getD_some] at hi
    simp [hi]

theorem Fits.setStatus (hf : f.Fits chart) (a : Address) (s : Status) :
    (f.setStatus a s).Fits chart := by
  intro b e hb
  have hi := hf b e hb
  simp only [Forest.setStatus, Array.getD_eq_getD_getElem?, Array.getElem?_modify] at hi ⊢
  split
  · rename_i hc
    cases hs : f.states[b.column]? with
    | none => simp [hs] at hi
    | some column => simpa [hs] using hi
  · exact hi

theorem fits_ofChart (chart : Chart) : (ofChart chart).Fits chart := by
  intro a e ha
  have hc := Chart.lt_size_of_entryAt? ha
  have hi := (Array.getElem?_eq_some_iff.mp ha).1
  simp only [Chart.column, Array.getD_eq_getD_getElem?, Array.getElem?_eq_getElem hc,
    Option.getD_some] at hi
  simpa [ofChart, hc] using hi

theorem status_ofChart (chart : Chart) (a : Address) : (ofChart chart).status a = .fresh := by
  simp only [status, ofChart, Array.getD_eq_getD_getElem?, Array.getElem?_map]
  cases chart.columns[a.column]? with
  | none => rfl
  | some column =>
    simp only [Option.map_some, Option.getD_some, Array.getElem?_replicate]
    split <;> rfl

theorem status_of_states (h : f.states = f'.states) (a : Address) :
    f.status a = f'.status a := by
  simp only [status, h]

theorem Fits.of_states (hf : f.Fits chart) (h : f.states = f'.states) : f'.Fits chart := by
  intro a e ha
  rw [← h]
  exact hf a e ha

theorem Fits.step (hf : f.Fits chart) (t : Task) : (Forest.step chart f t).2.Fits chart := by
  rcases step_cases chart f t with
      hstep | ⟨a, e, f', found, -, hstates, hstep⟩ | ⟨a, e, -, -, hstep⟩
  · rw [hstep]
    exact hf
  · rw [hstep]
    exact (hf.of_states hstates.symm).setStatus a _
  · rw [hstep]
    exact hf.setStatus a _

end Status

end Forest

namespace Chart

def addresses (chart : Chart) : List Address :=
  (List.range chart.columns.size).flatMap fun c =>
    (List.range (chart.column c).size).map fun i => ⟨c, i⟩

def cost (chart : Chart) (a : Address) : Nat :=
  ((chart.entryAt? a).map fun e => 1 + 2 * e.links.length).getD 0

variable {chart : Chart} {a : Address} {e : Entry}

theorem cost_eq (ha : chart.entryAt? a = some e) : chart.cost a = 1 + 2 * e.links.length := by
  simp only [cost, ha, Option.map_some, Option.getD_some]

theorem mem_addresses (ha : chart.entryAt? a = some e) : a ∈ chart.addresses := by
  have hi := (Array.getElem?_eq_some_iff.mp ha).1
  exact List.mem_flatMap.mpr ⟨a.column, List.mem_range.mpr (lt_size_of_entryAt? ha),
    List.mem_map.mpr ⟨a.index, List.mem_range.mpr hi, rfl⟩⟩

theorem foldr_eq_sum_range {α : Type} (xs : Array α) (w : α → Nat) :
    xs.toList.foldr (fun x n => w x + n) 0 =
      ((List.range xs.size).map fun i => (xs[i]?.map w).getD 0).sum := by
  have h : (List.range xs.size).map (fun i => (xs[i]?.map w).getD 0) = xs.toList.map w := by
    apply List.ext_getElem
    · simp
    · intro i h₁ h₂
      have hi : i < xs.size := by simpa using h₁
      simp [hi]
  rw [h, List.sum_eq_foldr, List.foldr_map]

theorem extent_eq_sum_cost (chart : Chart) :
    chart.extent = (chart.addresses.map chart.cost).sum := by
  have hc : ∀ c,
      (((List.range (chart.column c).size).map fun i => Address.mk c i).map chart.cost).sum =
        (chart.column c).extent := by
    intro c
    rw [Column.extent, foldr_eq_sum_range, List.map_map]
    rfl
  have hcolumns : ∀ c, c < chart.columns.size →
      (chart.columns[c]?.map Column.extent).getD 0 = (chart.column c).extent := by
    intro c hlt
    simp [column, hlt]
  rw [extent, foldr_eq_sum_range, addresses, List.map_flatMap, List.flatMap, List.sum_flatten,
    List.map_map]
  congr 1
  apply List.map_congr_left
  intro c hmem
  exact (hcolumns c (List.mem_range.mp hmem)).trans (hc c).symm

end Chart

namespace Forest

variable {chart : Chart} {f f' : Forest} {a : Address} {s : Status} {e : Entry}
  {tasks : List Task}

/-- What is left to pay for an entry: nothing once it has been entered. -/
def owed (chart : Chart) (f : Forest) (a : Address) : Nat :=
  match f.status a with
  | .fresh => chart.cost a
  | _ => 0

def due (chart : Chart) (f : Forest) : Nat :=
  (chart.addresses.map (owed chart f)).sum

theorem owed_le_cost (chart : Chart) (f : Forest) (a : Address) :
    owed chart f a ≤ chart.cost a := by
  unfold owed
  split
  · exact Nat.le_refl _
  · exact Nat.zero_le _

theorem owed_of_ne (hs : f.status a ≠ .fresh) : owed chart f a = 0 := by
  unfold owed
  split
  · contradiction
  · rfl

theorem due_le_extent (chart : Chart) (f : Forest) : due chart f ≤ chart.extent := by
  rw [Chart.extent_eq_sum_cost]
  exact List.sum_le_sum fun a _ => owed_le_cost chart f a

/-- Once an entry has a status, nothing is owed for it any more. -/
theorem due_setStatus (hf : f.Fits chart) (ha : chart.entryAt? a = some e) (hs : s ≠ .fresh) :
    due chart (f.setStatus a s) + owed chart f a ≤ due chart f := by
  have hself : owed chart (f.setStatus a s) a = 0 :=
    owed_of_ne (by rwa [status_setStatus_self hf ha])
  have hle : ∀ b, owed chart (f.setStatus a s) b ≤ owed chart f b := by
    intro b
    by_cases hb : b = a
    · rw [hb, hself]
      exact Nat.zero_le _
    · simp only [owed, status_setStatus_of_ne hb, Nat.le_refl]
  obtain ⟨before, after, hl⟩ := List.append_of_mem (Chart.mem_addresses ha)
  have h₁ := List.sum_le_sum (l := before) fun b _ => hle b
  have h₂ := List.sum_le_sum (l := after) fun b _ => hle b
  simp only [due, hl, List.map_append, List.map_cons, List.sum_append, List.sum_cons, hself]
  omega

theorem due_of_states (h : f.states = f'.states) : due chart f = due chart f' := by
  have howed : owed chart f = owed chart f' := by
    funext a
    simp only [owed, status_of_states h]
  rw [due, due, howed]

theorem length_visits (links : List Link) :
    (links.flatMap Link.visits).length ≤ 2 * links.length := by
  induction links with
  | nil => exact Nat.le_refl _
  | cons l links ih =>
    have hl : l.visits.length ≤ 2 := by
      unfold Link.visits
      split <;> simp
    simp only [List.flatMap_cons, List.length_append, List.length_cons]
    omega

/-- What a task adds to the tasks is paid for by the entry it enters. -/
theorem length_step_add_due (hf : f.Fits chart) (t : Task) :
    (step chart f t).1.length + due chart (step chart f t).2 ≤ due chart f := by
  rcases step_cases chart f t with
      hstep | ⟨a, e, f', found, ha, hstates, hstep⟩ | ⟨a, e, ha, hs, hstep⟩
  · rw [hstep]
    simp
  · have hdue := due_setStatus (hf.of_states hstates.symm) ha (s := .resolved found) (by simp)
    rw [due_of_states hstates] at hdue
    rw [hstep]
    simp only [List.length_nil]
    omega
  · have hdue := due_setStatus hf ha (s := .active) (by simp)
    have howed : owed chart f a = 1 + 2 * e.links.length := by
      simp only [owed, hs, Chart.cost_eq ha]
    have hlen := length_visits e.links
    rw [hstep]
    simp only [List.length_append, List.length_singleton]
    omega

/-- With a bound that covers the tasks and what is due, the run carries out all tasks. -/
theorem resolves_run (hf : f.Fits chart) (n : Nat) (hn : tasks.length + due chart f ≤ n) :
    Resolves chart tasks f (run chart n tasks f) := by
  induction n generalizing tasks f with
  | zero =>
    obtain rfl :=
      List.length_eq_zero_iff.mp (Nat.le_zero.mp (Nat.le_trans (Nat.le_add_right _ _) hn))
    exact .nil
  | succ n ih =>
    cases tasks with
    | nil => exact .nil
    | cons t tasks =>
      -- The bound pays for this task; the tasks it adds are paid for by what is no longer due.
      rw [run_succ]
      have hstep := length_step_add_due hf t
      refine .cons (ih (hf.step t) ?_)
      simp only [List.length_cons, List.length_append] at hn ⊢
      omega

theorem resolves_resolve (hf : f.Fits chart) (a : Address) :
    Resolves chart [.visit a] f (f.resolve chart a) := by
  refine resolves_run hf _ ?_
  have := due_le_extent chart f
  simp only [List.length_singleton]
  omega

end Forest

end Fabula
