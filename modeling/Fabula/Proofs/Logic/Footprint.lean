import Fabula.Logic.Evaluation
import Fabula.Proofs.Outcome
import Mathlib

namespace Fabula

namespace Names

theorem mem_insert {name other : String} {names : List String} :
    other ∈ insert name names ↔ other = name ∨ other ∈ names := by
  induction names with
  | nil => simp [insert]
  | cons n ns ih =>
    unfold insert
    split
    · simp
    · split
      · rename_i hn
        simp [hn]
      · rw [List.mem_cons, ih, List.mem_cons]
        tauto

theorem mem_ofList {name : String} {names : List String} :
    name ∈ ofList names ↔ name ∈ names := by
  induction names with
  | nil => simp [ofList]
  | cons n ns ih =>
    have hstep : ofList (n :: ns) = insert n (ofList ns) := rfl
    rw [hstep, mem_insert, ih, List.mem_cons]

end Names

namespace Qualities

/-- The same value, or none, for each of the names. -/
def AgreeOn (names : List String) (q q' : Qualities) : Prop :=
  ∀ name ∈ names, q.get? name = q'.get? name

variable {names : List String} {q q' : Qualities} {name other : String} {value : Value}

theorem lookup_setIn_self (entries : List (String × Value)) :
    (setIn name value entries).lookup name = some value := by
  induction entries with
  | nil => simp [setIn]
  | cons e es ih =>
    unfold setIn
    split
    · simp
    · rename_i he
      obtain ⟨n, v⟩ := e
      have hne : (name == n) = false := by
        rw [beq_eq_false_iff_ne]
        rintro rfl
        simp at he
      simp only [List.lookup_cons, hne, ih]

theorem lookup_setIn_of_ne (h : other ≠ name) (entries : List (String × Value)) :
    (setIn name value entries).lookup other = entries.lookup other := by
  have hbeq : (other == name) = false := beq_eq_false_iff_ne.mpr h
  induction entries with
  | nil => simp [setIn, h]
  | cons e es ih =>
    obtain ⟨n, v⟩ := e
    unfold setIn
    split
    · rename_i he
      rw [beq_iff_eq] at he
      simp only at he
      simp only [List.lookup_cons, he, hbeq]
    · simp only [List.lookup_cons, ih]

@[simp] theorem get?_set_self : (q.set name value).get? name = some value :=
  lookup_setIn_self q.entries

theorem get?_set_of_ne (h : other ≠ name) : (q.set name value).get? other = q.get? other :=
  lookup_setIn_of_ne h q.entries

theorem AgreeOn.get (h : q.AgreeOn names q') (hn : name ∈ names) :
    q.get name = q'.get name := by
  rw [Qualities.get, Qualities.get, h name hn]

theorem AgreeOn.mono {fewer : List String} (h : q.AgreeOn names q')
    (hsub : ∀ n ∈ fewer, n ∈ names) : q.AgreeOn fewer q' :=
  fun n hn => h n (hsub n hn)

theorem AgreeOn.set (h : q.AgreeOn names q') (name : String) (value : Value) :
    (q.set name value).AgreeOn names (q'.set name value) := by
  intro n hn
  by_cases he : n = name
  · rw [he, get?_set_self, get?_set_self]
  · rw [get?_set_of_ne he, get?_set_of_ne he]
    exact h n hn

end Qualities

/-- The same visit count for each of the scenes. -/
def Visits.AgreeOn (scenes : List String) (v v' : Visits) : Prop :=
  ∀ scene ∈ scenes, v.count scene = v'.count scene

theorem Visits.AgreeOn.mono {scenes fewer : List String} {v v' : Visits}
    (h : v.AgreeOn scenes v') (hsub : ∀ s ∈ fewer, s ∈ scenes) : v.AgreeOn fewer v' :=
  fun s hs => h s (hsub s hs)

variable (engine : Engine) {v v' : Visits} {q q' : Qualities}

namespace Expr

mutual

theorem evaluate_congr : (e : Expr) → v.AgreeOn e.sceneNames v' → q.AgreeOn e.readNames q' →
    e.evaluate engine v q = e.evaluate engine v' q'
  | number _, _, _ => by simp only [evaluate]
  | bool _, _, _ => by simp only [evaluate]
  | quality name, _, hq => by
    simp only [evaluate, hq.get (List.mem_singleton.mpr rfl)]
  | .visits scene, hv, _ => by
    simp only [evaluate, hv scene (List.mem_singleton.mpr rfl)]
  | not e, hv, hq => by
    simp only [evaluate, evaluate_congr e hv hq]
  | negate e, hv, hq => by
    simp only [evaluate, evaluate_congr e hv hq]
  | binary op lhs rhs, hv, hq => by
    have hl := evaluate_congr lhs (hv.mono fun _ => List.mem_append_left _)
      (hq.mono fun _ => List.mem_append_left _)
    have hr := evaluate_congr rhs (hv.mono fun _ => List.mem_append_right _)
      (hq.mono fun _ => List.mem_append_right _)
    simp only [evaluate, hl, hr]
  | call name args, hv, hq => by
    simp only [evaluate, evaluateAll_congr args hv hq]

theorem evaluateAll_congr : (es : List Expr) → v.AgreeOn (sceneNamesOf es) v' →
    q.AgreeOn (readNamesOf es) q' → evaluateAll engine v q es = evaluateAll engine v' q' es
  | [], _, _ => by simp only [evaluateAll]
  | e :: es, hv, hq => by
    have he := evaluate_congr e (hv.mono fun _ => List.mem_append_left _)
      (hq.mono fun _ => List.mem_append_left _)
    have hes := evaluateAll_congr es (hv.mono fun _ => List.mem_append_right _)
      (hq.mono fun _ => List.mem_append_right _)
    simp only [evaluateAll, he, hes]

end

end Expr

namespace Command

variable {c : Command} {cs : List Command} {names : List String}

theorem apply_cases (v : Visits) (c : Command) (q : Qualities) :
    (∃ e, c.apply engine v q = .error e) ∨
      ∃ value, c.apply engine v q = .ok (q.set c.quality value) := by
  simp only [apply]
  cases c.value.evaluate engine v q with
  | error e => exact .inl ⟨e, rfl⟩
  | ok value => exact .inr ⟨_, rfl⟩

theorem apply_agree (hv : v.AgreeOn c.value.sceneNames v')
    (hq : q.AgreeOn (c.quality :: c.value.readNames) q') :
    (∃ e, c.apply engine v q = .error e ∧ c.apply engine v' q' = .error e) ∨
      ∃ value, c.apply engine v q = .ok (q.set c.quality value) ∧
        c.apply engine v' q' = .ok (q'.set c.quality value) := by
  have hvalue : c.value.evaluate engine v q = c.value.evaluate engine v' q' :=
    c.value.evaluate_congr engine hv (hq.mono fun _ => List.mem_cons_of_mem _)
  have hcurrent := hq.get List.mem_cons_self
  simp only [apply, hvalue, hcurrent]
  cases c.value.evaluate engine v' q' with
  | error e => exact .inl ⟨e, rfl, rfl⟩
  | ok value => exact .inr ⟨_, rfl, rfl⟩

theorem get?_applyAll {name : String} (h : ∀ c ∈ cs, name ≠ c.quality) (q : Qualities) :
    (applyAll engine v cs q).1.get? name = q.get? name := by
  induction cs generalizing q with
  | nil => rfl
  | cons c cs ih =>
    have hrest : ∀ c ∈ cs, name ≠ c.quality := fun d hd => h d (List.mem_cons_of_mem _ hd)
    unfold applyAll
    rcases apply_cases engine v c q with ⟨e, he⟩ | ⟨value, hok⟩
    · rw [he]
    · rw [hok]
      simp only
      rw [ih hrest, Qualities.get?_set_of_ne (h c List.mem_cons_self)]

theorem applyAll_agree (hscenes : ∀ c ∈ cs, v.AgreeOn c.value.sceneNames v')
    (hnames : ∀ c ∈ cs, ∀ name ∈ c.quality :: c.value.readNames, name ∈ names)
    (hq : q.AgreeOn names q') :
    (applyAll engine v cs q).2 = (applyAll engine v' cs q').2 ∧
      (applyAll engine v cs q).1.AgreeOn names (applyAll engine v' cs q').1 := by
  -- Each command may read what the ones before it wrote, so the agreement is carried along the
  -- list.
  induction cs generalizing q q' with
  | nil => exact ⟨rfl, hq⟩
  | cons c cs ih =>
    have hone := apply_agree engine (hscenes c List.mem_cons_self)
      (hq.mono (hnames c List.mem_cons_self))
    unfold applyAll
    rcases hone with ⟨e, he, he'⟩ | ⟨value, hok, hok'⟩
    · rw [he, he']
      exact ⟨rfl, hq⟩
    · rw [hok, hok']
      exact ih (fun d hd => hscenes d (List.mem_cons_of_mem _ hd))
        (fun d hd => hnames d (List.mem_cons_of_mem _ hd)) (hq.set c.quality value)

end Command

namespace Program

theorem mem_qualities_actions {commands : List Command} {c : Command} (hc : c ∈ commands)
    {name : String} (hn : name ∈ c.quality :: c.value.readNames) :
    name ∈ (actions commands).qualities :=
  Names.mem_ofList.mpr (List.mem_flatMap.mpr ⟨c, hc, hn⟩)

theorem mem_scenes_actions {commands : List Command} {c : Command} (hc : c ∈ commands)
    {scene : String} (hs : scene ∈ c.value.sceneNames) : scene ∈ (actions commands).scenes :=
  Names.mem_ofList.mpr (List.mem_flatMap.mpr ⟨c, hc, hs⟩)

theorem run_agree {p : Program} (hv : v.AgreeOn p.scenes v') (hq : q.AgreeOn p.qualities q') :
    (p.run engine v q).2 = (p.run engine v' q').2 ∧
      (p.run engine v q).1.AgreeOn p.qualities (p.run engine v' q').1 := by
  cases p with
  | predicate e =>
    have he := e.evaluate_congr engine (hv.mono fun _ => Names.mem_ofList.mpr)
      (hq.mono fun _ => Names.mem_ofList.mpr)
    simp only [run, he, true_and]
    exact hq
  | expression e =>
    have he := e.evaluate_congr engine (hv.mono fun _ => Names.mem_ofList.mpr)
      (hq.mono fun _ => Names.mem_ofList.mpr)
    simp only [run, he, true_and]
    exact hq
  | actions commands =>
    obtain ⟨hresult, hafter⟩ := Command.applyAll_agree engine
      (fun c (hc : c ∈ commands) => hv.mono fun _ hs => mem_scenes_actions hc hs)
      (fun c hc name hn => mem_qualities_actions hc hn) hq
    simp only [run, hresult, true_and]
    exact hafter

theorem get?_run {p : Program} {name : String} (hn : name ∉ p.qualities) :
    (p.run engine v q).1.get? name = q.get? name := by
  cases p with
  | predicate e => rfl
  | expression e => rfl
  | actions commands =>
    refine Command.get?_applyAll engine (fun c hc => ?_) q
    rintro rfl
    exact hn (mem_qualities_actions hc List.mem_cons_self)

/-- The names of a program bound what it sees and touches. Two states that agree on its scenes
and qualities give the same outcome or error, their qualities agree on its names afterwards,
also after a run that fails half-way, and no other quality changes in either run. -/
theorem run_within_names (p : Program) (engine : Engine) (v v' : Visits) (q q' : Qualities)
    (hv : v.AgreeOn p.scenes v') (hq : q.AgreeOn p.qualities q') :
    (p.run engine v q).2 = (p.run engine v' q').2 ∧
      (p.run engine v q).1.AgreeOn p.qualities (p.run engine v' q').1 ∧
      ∀ name, name ∉ p.qualities →
        (p.run engine v q).1.get? name = q.get? name ∧
          (p.run engine v' q').1.get? name = q'.get? name := by
  obtain ⟨houtcome, hafter⟩ := run_agree engine hv hq
  exact ⟨houtcome, hafter, fun name hn => ⟨get?_run engine hn, get?_run engine hn⟩⟩

def raid : Program :=
  .actions [⟨"gold", .add, .visits "cellar"⟩, ⟨"seen", .set, .call "missing" [.quality "gold"]⟩]

/-- Two stories that differ in the attic and in health: the raid fails alike in both, the gold
is the same afterwards, and each keeps its health. -/
theorem raid_within_names :
    let v : Visits := ⟨[("cellar", 2), ("attic", 1)]⟩
    let v' : Visits := ⟨[("cellar", 2)]⟩
    let q : Qualities := ⟨[("gold", .number 3), ("health", .number 5)]⟩
    let q' : Qualities := ⟨[("health", .bool true), ("gold", .number 3)]⟩
    let engine := FunctionTable.standard.engine
    (v.AgreeOn raid.scenes v' ∧ q.AgreeOn raid.qualities q') ∧
      (raid.run engine v q).2 = (raid.run engine v' q').2 ∧
      (raid.run engine v q).1.get? "gold" = (raid.run engine v' q').1.get? "gold" ∧
      (raid.run engine v q).1.get? "health" = some (.number 5) ∧
      (raid.run engine v' q').1.get? "health" = some (.bool true) := by
  intro v v' q q' engine
  have hscenes : raid.scenes = ["cellar"] := by decide +kernel
  have hnames : raid.qualities = ["gold", "seen"] := by decide +kernel
  have hv : v.AgreeOn raid.scenes v' := by
    rw [hscenes]
    intro scene hs
    rw [List.mem_singleton.mp hs]
    rfl
  have hq : q.AgreeOn raid.qualities q' := by
    rw [hnames]
    intro name hn
    rcases List.mem_pair.mp hn with rfl | rfl
    · rfl
    · rfl
  obtain ⟨houtcome, hafter, hrest⟩ := run_within_names raid engine v v' q q' hv hq
  have hhealth := hrest "health" (by rw [hnames]; decide)
  refine ⟨⟨hv, hq⟩, houtcome, hafter "gold" (by rw [hnames]; decide), hhealth.1, hhealth.2⟩

end Program

end Fabula
