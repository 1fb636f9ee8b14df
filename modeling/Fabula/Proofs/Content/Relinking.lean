import Fabula.Proofs.Content.Linking
import Mathlib

namespace Fabula

/-- A rewrite that keeps no state. -/
def stateless (edit : String → String) : String → Unit → String × Unit :=
  fun source state => (edit source, state)

namespace Relinked

variable {σ α : Type} {r : Relinked σ α} {a : α} {e : ContentError}

/-- What was relinked, or the error. -/
def outcome (r : Relinked σ α) : Except ContentError α := r.result.map fun _ => r.left

theorem outcome_eq_ok_iff : r.outcome = .ok a ↔ r.result = .ok () ∧ r.left = a := by
  rw [outcome]
  cases r.result with
  | error e => simp [Except.map]
  | ok u => simp [Except.map]

theorem outcome_eq_error_iff : r.outcome = .error e ↔ r.result = .error e := by
  rw [outcome]
  cases r.result with
  | error e' => simp [Except.map]
  | ok u => simp [Except.map]

end Relinked

namespace Dependency

def root? (d : Dependency) : Option RootKind :=
  match d.logic with
  | .structured snippet => some snippet.root
  | .rawScript _ => none

def Refuses (dialect : Dialect Category) (edit : String → String) (d : Dependency)
    (cause : CompileError Category) : Prop :=
  ∃ root, d.root? = some root ∧ dialect.compile (edit d.source) root = .error cause

/-- A dependency with its source edited and its logic compiled anew, and all else as it was. -/
structure EditsTo (dialect : Dialect Category) (edit : String → String)
    (d d' : Dependency) : Prop where
  kind : d'.kind = d.kind
  formatter : d'.formatter = d.formatter
  root : d'.root? = d.root?
  raw : d'.isRaw = d.isRaw
  source : d'.source = edit d.source
  compiled : ∀ snippet, d'.logic = .structured snippet →
    dialect.compile snippet.source snippet.root = .ok snippet

variable {dialect : Dialect Category} {edit after : String → String} {d d' : Dependency}
  {e : ContentError}

def edited (dialect : Dialect Category) (edit : String → String) (d : Dependency) :
    Except ContentError Dependency :=
  (d.relink dialect (stateless edit) ()).outcome

theorem relinkAll_stateless (dialect : Dialect Category) (edit : String → String)
    (ds : List Dependency) :
    (relinkAll dialect (stateless edit) () ds).outcome = ds.mapM (edited dialect edit) := by
  induction ds with
  | nil => rfl
  | cons d ds ih =>
    rw [List.mapM_cons, ← ih, relinkAll, edited]
    dsimp only
    split
    · rename_i hresult
      rw [Relinked.outcome_eq_ok_iff.mpr ⟨hresult, rfl⟩]
      simp only [Relinked.outcome]
      cases (relinkAll dialect (stateless edit) () ds).result with
      | error e => rfl
      | ok u => rfl
    · rename_i e hresult
      rw [Relinked.outcome_eq_error_iff.mpr hresult]
      rfl

theorem editsTo_of_edited (h : d.edited dialect edit = .ok d') : d.EditsTo dialect edit d' := by
  obtain ⟨kind, logic, formatter⟩ := d
  cases logic with
  | rawScript source =>
    cases h
    exact ⟨rfl, rfl, rfl, rfl, rfl, fun _ hs => DependencyLogic.noConfusion hs⟩
  | structured snippet =>
    simp only [edited, relink, Dialect.recompile, stateless] at h
    split at h
    · rename_i compiled hc
      cases h
      obtain ⟨hsource, hroot⟩ := Dialect.compile_eq_ok hc
      refine ⟨rfl, rfl, congrArg some hroot, rfl, hsource, ?_⟩
      rintro _ ⟨⟩
      rw [hsource, hroot]
      exact hc
    · cases h

theorem edited_eq_error_iff : d.edited dialect edit = .error e ↔
    ∃ cause, d.Refuses dialect edit cause ∧ e = .logic (edit d.source) cause := by
  obtain ⟨kind, logic, formatter⟩ := d
  cases logic with
  | rawScript source => simp [edited, relink, Relinked.outcome, Except.map, Refuses, root?]
  | structured snippet =>
    simp only [edited, relink, Dialect.recompile, stateless, Refuses, root?, source,
      Option.some.injEq]
    cases hc : dialect.compile (edit snippet.source) snippet.root with
    | ok compiled => simp [Relinked.outcome, Except.map, hc]
    | error cause => simp [Relinked.outcome, Except.map, hc, eq_comm]

theorem exists_edited_iff :
    (∃ d', d.edited dialect edit = .ok d') ↔ ∀ cause, ¬ d.Refuses dialect edit cause := by
  constructor
  · rintro ⟨d', hd'⟩ cause hr
    cases hd'.symm.trans (edited_eq_error_iff.mpr ⟨cause, hr, rfl⟩)
  · intro hr
    cases hd : d.edited dialect edit with
    | ok d' => exact ⟨d', rfl⟩
    | error e =>
      obtain ⟨cause, hcause, -⟩ := edited_eq_error_iff.mp hd
      exact absurd hcause (hr cause)

theorem edited_edited (h : d.edited dialect edit = .ok d') :
    d'.edited dialect after = d.edited dialect (after ∘ edit) := by
  obtain ⟨kind, logic, formatter⟩ := d
  cases logic with
  | rawScript source =>
    cases h
    rfl
  | structured snippet =>
    simp only [edited, relink, Dialect.recompile, stateless] at h
    split at h
    · rename_i compiled hc
      cases h
      obtain ⟨hsource, hroot⟩ := Dialect.compile_eq_ok hc
      simp only [edited, relink, Dialect.recompile, stateless, hsource, hroot,
        Function.comp_apply]
      cases dialect.compile (after (edit snippet.source)) snippet.root with
      | error e => rfl
      | ok snippet => rfl
    · cases h

theorem Sound.edited_id (hd : d.Sound dialect) : d.edited dialect id = .ok d := by
  obtain ⟨kind, logic, formatter⟩ := d
  cases logic with
  | rawScript source => rfl
  | structured snippet =>
    have hc := hd.compiled snippet rfl
    have hroot := (Dialect.compile_eq_ok hc).2
    simp only [edited, Dependency.relink, Dialect.recompile, stateless, id_eq, hroot, hc]
    rfl

end Dependency

namespace Content

variable {dialect : Dialect Category} {edit after : String → String} {content next : Content}
  {e : ContentError}

/-- A relink that fails leaves the content as it was, by whatever rewrite. -/
theorem left_of_error {σ : Type} {rewrite : String → σ → String × σ} {state : σ}
    (h : (content.relink dialect rewrite state).result = .error e) :
    (content.relink dialect rewrite state).left = content := by
  rw [relink] at h ⊢
  split
  · rename_i hresult
    simp [hresult] at h
  · rfl

theorem outcome_relink (content : Content) (dialect : Dialect Category)
    (edit : String → String) :
    (content.relink dialect (stateless edit) ()).outcome =
      (content.dependencies.mapM (Dependency.edited dialect edit)).map fun ds =>
        ⟨content.root, ds⟩ := by
  rw [← Dependency.relinkAll_stateless, relink, Relinked.outcome]
  split
  · rename_i hresult
    rw [Relinked.outcome_eq_ok_iff.mpr ⟨hresult, rfl⟩]
    rfl
  · rename_i e hresult
    rw [Relinked.outcome_eq_error_iff.mpr hresult]
    rfl

theorem relink_eq_error_iff :
    (content.relink dialect (stateless edit) ()).result = .error e ↔
      ∃ front d rest cause, content.dependencies = front ++ d :: rest ∧
        d.Refuses dialect edit cause ∧ e = .logic (edit d.source) cause ∧
        ∀ d' ∈ front, ∀ cause', ¬ d'.Refuses dialect edit cause' := by
  have hmap : (content.relink dialect (stateless edit) ()).result = .error e ↔
      content.dependencies.mapM (Dependency.edited dialect edit) = .error e := by
    rw [← Relinked.outcome_eq_error_iff, outcome_relink]
    cases content.dependencies.mapM (Dependency.edited dialect edit) with
    | error e' => simp [Except.map]
    | ok ds => simp [Except.map]
  rw [hmap, mapM_eq_error_iff]
  constructor
  · rintro ⟨front, d, rest, hsplit, hd, hfront⟩
    obtain ⟨cause, hr, he⟩ := Dependency.edited_eq_error_iff.mp hd
    refine ⟨front, d, rest, cause, hsplit, hr, he, ?_⟩
    intro d' hd'
    exact Dependency.exists_edited_iff.mp (hfront d' hd')
  · rintro ⟨front, d, rest, cause, hsplit, hr, he, hfront⟩
    refine ⟨front, d, rest, hsplit, Dependency.edited_eq_error_iff.mpr ⟨cause, hr, he⟩, ?_⟩
    intro d' hd'
    exact Dependency.exists_edited_iff.mpr (hfront d' hd')

theorem relink_fails_iff :
    (∃ e, (content.relink dialect (stateless edit) ()).result = .error e) ↔
      ∃ d ∈ content.dependencies, ∃ cause, d.Refuses dialect edit cause := by
  constructor
  · rintro ⟨e, he⟩
    obtain ⟨front, d, rest, cause, hsplit, hr, -⟩ := relink_eq_error_iff.mp he
    exact ⟨d, by simp [hsplit], cause, hr⟩
  · rintro ⟨d, hd, cause, hr⟩
    cases h : (content.relink dialect (stateless edit) ()).result with
    | error e => exact ⟨e, rfl⟩
    | ok u =>
      have hok := Relinked.outcome_eq_ok_iff.mpr ⟨h, rfl⟩
      rw [outcome_relink] at hok
      obtain ⟨ds, hds, -⟩ := map_eq_ok_iff.mp hok
      obtain ⟨i, hi⟩ := List.getElem?_of_mem hd
      obtain ⟨d', -, hd'⟩ := exists_getElem?_of_forall₂ (mapM_eq_ok_iff.mp hds) hi
      cases hd'.symm.trans (Dependency.edited_eq_error_iff.mpr ⟨cause, hr, rfl⟩)

theorem editsTo_of_relink
    (h : (content.relink dialect (stateless edit) ()).outcome = .ok next) :
    next.root = content.root ∧
      List.Forall₂ (Dependency.EditsTo dialect edit) content.dependencies
        next.dependencies := by
  rw [outcome_relink] at h
  obtain ⟨ds, hds, rfl⟩ := map_eq_ok_iff.mp h
  exact ⟨rfl, (mapM_eq_ok_iff.mp hds).imp fun _ _ => Dependency.editsTo_of_edited⟩

theorem relink_relink (h : (content.relink dialect (stateless edit) ()).outcome = .ok next) :
    (next.relink dialect (stateless after) ()).outcome =
      (content.relink dialect (stateless (after ∘ edit)) ()).outcome := by
  rw [outcome_relink] at h
  obtain ⟨ds, hds, rfl⟩ := map_eq_ok_iff.mp h
  rw [outcome_relink, outcome_relink, mapM_of_mapM hds fun _ _ => Dependency.edited_edited]

theorem Linked.relink_id (h : content.Linked dialect) :
    (content.relink dialect (stateless id) ()).outcome = .ok content := by
  have hds : content.dependencies.mapM (Dependency.edited dialect id) =
      .ok content.dependencies := by
    apply mapM_eq_ok_iff.mpr
    apply List.forall₂_same.mpr
    intro d hd
    exact (h.sound d hd).edited_id
  rw [outcome_relink, hds]
  rfl

end Content

namespace Compiler

/-- A relink of content by an edit of its sources: it fails with the error of the first
dependency whose edited source does not compile and then leaves everything as it was, or it
edits every dependency in its place. -/
structure Relinks (c : Compiler) (content : Content) (edit : String → String) : Prop where
  fails : (∃ e, (c.relink (stateless edit) () content).result = .error e) ↔
    ∃ d ∈ content.dependencies, ∃ cause, d.Refuses c.dialect edit cause
  first : ∀ e, (c.relink (stateless edit) () content).result = .error e →
    ∃ front d rest cause, content.dependencies = front ++ d :: rest ∧
      d.Refuses c.dialect edit cause ∧ e = .logic (edit d.source) cause ∧
      ∀ d' ∈ front, ∀ cause', ¬ d'.Refuses c.dialect edit cause'
  unchanged : ∀ e, (c.relink (stateless edit) () content).result = .error e →
    (c.relink (stateless edit) () content).left = content
  edited : (c.relink (stateless edit) () content).result = .ok () →
    (c.relink (stateless edit) () content).left.root = content.root ∧
      List.Forall₂ (Dependency.EditsTo c.dialect edit) content.dependencies
        (c.relink (stateless edit) () content).left.dependencies

/-- Relinking compiled content is all or nothing, and respects the identity and the composition
of edits: two edits one after the other give the same content, or the same error, as both at
once. -/
theorem relink_lawful (c : Compiler) (source : String) (collect : Bool) (content : Content)
    (h : c.compileContent source collect = .ok content) :
    (∀ edit, c.Relinks content edit) ∧
      (c.relink (stateless id) () content).result = .ok () ∧
      (c.relink (stateless id) () content).left = content ∧
      ∀ edit after, (c.relink (stateless edit) () content).result = .ok () →
        (c.relink (stateless after) () (c.relink (stateless edit) () content).left).outcome =
          (c.relink (stateless (after ∘ edit)) () content).outcome := by
  obtain ⟨hid, hsame⟩ :=
    Relinked.outcome_eq_ok_iff.mp (Content.linked_of_compile h).relink_id
  refine ⟨fun edit => ?_, hid, hsame, fun edit after hok => ?_⟩
  · exact
      { fails := Content.relink_fails_iff
        first := fun _ => Content.relink_eq_error_iff.mp
        unchanged := fun _ => Content.left_of_error
        edited := fun hok =>
          Content.editsTo_of_relink (Relinked.outcome_eq_ok_iff.mpr ⟨hok, rfl⟩) }
  · exact Content.relink_relink (Relinked.outcome_eq_ok_iff.mpr ⟨hok, rfl⟩)

theorem relink_lawful_purse :
    ∃ content, compileContent ⟨Limits.standard⟩ "[+\x7b!b!\x7d+][+a:c+]" false = .ok content ∧
      (Relinks ⟨Limits.standard⟩ content (· ++ ")") ∧
        ∃ e, (relink ⟨Limits.standard⟩ (stateless (· ++ ")")) () content).result = .error e) ∧
      (Relinks ⟨Limits.standard⟩ content ("-" ++ ·) ∧
        (relink ⟨Limits.standard⟩ (stateless ("-" ++ ·)) () content).result = .ok ()) ∧
      (relink ⟨Limits.standard⟩ (stateless id) () content).left = content ∧
      (relink ⟨Limits.standard⟩ (stateless (· ++ "+1")) ()
          (relink ⟨Limits.standard⟩ (stateless ("-" ++ ·)) () content).left).outcome =
        (relink ⟨Limits.standard⟩ (stateless ((· ++ "+1") ∘ ("-" ++ ·))) ()
          content).outcome := by
  have hok :
      ((compileContent ⟨Limits.standard⟩ "[+\x7b!b!\x7d+][+a:c+]" false).map fun content =>
        !(relink ⟨Limits.standard⟩ (stateless (· ++ ")")) () content).result.toBool &&
          (relink ⟨Limits.standard⟩ (stateless ("-" ++ ·)) () content).result.toBool).toOption =
        some true := by
    decide +kernel
  cases h : compileContent ⟨Limits.standard⟩ "[+\x7b!b!\x7d+][+a:c+]" false with
  | error e => simp [h, Except.map, Except.toOption] at hok
  | ok content =>
    simp only [h, Except.map, Except.toOption, Option.some.injEq, Bool.and_eq_true,
      Bool.not_eq_true'] at hok
    obtain ⟨hfails, hsucceeds⟩ := hok
    obtain ⟨hrelinks, -, hid, hcomp⟩ := relink_lawful _ _ _ content h
    have hminus : (relink ⟨Limits.standard⟩ (stateless ("-" ++ ·)) () content).result =
        .ok () := by
      revert hsucceeds
      cases (relink ⟨Limits.standard⟩ (stateless ("-" ++ ·)) () content).result with
      | error e => simp [Except.toBool]
      | ok u => simp
    refine ⟨content, rfl, ⟨hrelinks _, ?_⟩, ⟨hrelinks _, hminus⟩, hid, hcomp _ _ hminus⟩
    revert hfails
    cases (relink ⟨Limits.standard⟩ (stateless (· ++ ")")) () content).result with
    | error e => simp
    | ok u => simp [Except.toBool]

end Compiler

end Fabula
