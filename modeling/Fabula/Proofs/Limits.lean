import Fabula.Proofs.Content.Shape
import Fabula.Proofs.Scan.Tiling

namespace Fabula

/-- The second outcome is the first, unless that is an error of a limit. -/
def Persists {ε α : Type} (isLimit : ε → Bool) (x x' : Except ε α) : Prop :=
  (∀ e, x = .error e → isLimit e = false) → x' = x

namespace Persists

variable {ε ε' α β γ : Type} {isLimit : ε → Bool} {isLimit' : ε' → Bool} {x x' : Except ε α}

theorem refl (x : Except ε α) : Persists isLimit x x := fun _ => rfl

theorem of_limit {e : ε} (h : isLimit e = true) : Persists isLimit (.error e) x' := by
  intro hlimit
  rw [hlimit e rfl] at h
  cases h

theorem bind {f f' : α → Except ε β} (hx : Persists isLimit x x')
    (hf : ∀ a, Persists isLimit (f a) (f' a)) : Persists isLimit (x >>= f) (x' >>= f') := by
  intro hlimit
  cases x with
  | error e =>
    rw [hx fun e' he => hlimit e' (by cases he; rfl)]
    rfl
  | ok a =>
    rw [hx (by simp)]
    exact hf a hlimit

theorem map (f : α → β) (hx : Persists isLimit x x') :
    Persists isLimit (x.map f) (x'.map f) := by
  intro hlimit
  rw [hx]
  rintro e rfl
  exact hlimit e rfl

theorem mapError {f : ε → ε'} (hf : ∀ e, isLimit' (f e) = isLimit e)
    (hx : Persists isLimit x x') : Persists isLimit' (x.mapError f) (x'.mapError f) := by
  intro hlimit
  rw [hx]
  rintro e rfl
  rw [← hf]
  exact hlimit (f e) rfl

theorem foldlM {f f' : β → γ → Except ε β}
    (hf : ∀ b c, Persists isLimit (f b c) (f' b c)) (b : β) (cs : List γ) :
    Persists isLimit (cs.foldlM f b) (cs.foldlM f' b) := by
  induction cs generalizing b with
  | nil => exact refl _
  | cons c cs ih =>
    rw [List.foldlM_cons, List.foldlM_cons]
    exact (hf b c).bind ih

end Persists

def ScanError.isLimit : ScanError → Bool
  | unrecognized _ _ => false
  | runaway _ => true

def CompileError.isLimit {ν : Type} : CompileError ν → Bool
  | lex error => error.isLimit
  | parse (.tooLong _ _) => true
  | parse _ => false

def MarkupError.isLimit : MarkupError → Bool
  | tooDeep _ => true
  | _ => false

/-- Whether an error comes from a limit, be it in the logic of a dependency. -/
def ContentError.isLimit : ContentError → Bool
  | markup error => error.isLimit
  | logic _ error => error.isLimit
  | scan error => error.isLimit

namespace Scanner

variable {τ : Type} {next? : Place → Option (Hit τ)} {steps steps' : Nat} {lenient : Bool}

theorem persists_scanFrom {budget budget' : Nat} (h : budget ≤ budget') (offset : Nat)
    (p : Place) (out : Array (Token τ)) :
    Persists ScanError.isLimit (scanFrom ⟨next?, steps⟩ lenient budget offset p out)
      (scanFrom ⟨next?, steps'⟩ lenient budget' offset p out) := by
  induction budget generalizing budget' offset p out with
  | zero =>
    by_cases hp : p.left = 0
    · rw [scanFrom_end hp, scanFrom_end hp]
      exact .refl _
    · rw [scanFrom, if_neg hp]
      exact .of_limit rfl
  | succ budget ih =>
    by_cases hp : p.left = 0
    · rw [scanFrom_end hp, scanFrom_end hp]
      exact .refl _
    · cases budget' with
      | zero => cases h
      | succ budget' =>
        rw [scanFrom, scanFrom, if_neg hp, if_neg hp]
        -- What a step finds does not depend on how many steps there may be.
        have hstep : step ⟨next?, steps'⟩ p = step ⟨next?, steps⟩ p := rfl
        rw [hstep]
        dsimp only
        split
        · exact ih (Nat.le_of_succ_le_succ h) _ _ _
        · exact .refl _

theorem persists_scan (h : steps ≤ steps') (source : String) :
    Persists ScanError.isLimit (scan ⟨next?, steps⟩ lenient source)
      (scan ⟨next?, steps'⟩ lenient source) :=
  (persists_scanFrom h _ _ _).map _

end Scanner

theorem Dialect.persists_compile {steps steps' most most' : Nat} (hsteps : steps ≤ steps')
    (hmost : most ≤ most') (source : String) (root : RootKind) :
    Persists CompileError.isLimit ((standard steps most).compile source root)
      ((standard steps' most').compile source root) := by
  have hscan : Persists ScanError.isLimit ((Lexicon.table steps).scan false source)
      ((Lexicon.table steps').scan false source) :=
    Scanner.persists_scan hsteps source
  intro hlimit
  unfold compile standard at hlimit ⊢
  dsimp only at hlimit ⊢
  cases hresult : (Lexicon.table steps).scan false source with
  | error e =>
    rw [hresult] at hscan hlimit
    rw [hscan]
    rintro _ ⟨⟩
    exact hlimit (.lex e) rfl
  | ok tokens =>
    rw [hresult] at hscan hlimit
    rw [hscan (by simp)]
    dsimp only at hlimit ⊢
    cases hexcess : tokens[most]? with
    | some excess =>
      rw [hexcess] at hlimit
      cases hlimit _ rfl
    | none =>
      have hnone : tokens[most']? = none :=
        List.getElem?_eq_none (Nat.le_trans (List.getElem?_eq_none_iff.mp hexcess) hmost)
      rw [hnone]

theorem Builder.persists_step {depth depth' : Nat} (h : depth ≤ depth') (b : Builder)
    (e : Event) : Persists MarkupError.isLimit (step depth b e) (step depth' b e) := by
  cases e with
  | start kind =>
    rw [step, step]
    split
    · exact .of_limit rfl
    · rename_i hroom
      rw [if_neg fun hfull => hroom (Nat.le_trans h hfull)]
      exact .refl _
  | _ => exact .refl _

theorem Range.persists_ofEvents {depth depth' : Nat} (h : depth ≤ depth')
    (events : List Event) :
    Persists MarkupError.isLimit (ofEvents depth events) (ofEvents depth' events) :=
  (Persists.foldlM (Builder.persists_step h) _ _).bind fun _ => .refl _

/-- The second dialect compiles whatever the first does in the same way, limits apart. -/
def Dialect.Widens (dialect dialect' : Dialect Category) : Prop :=
  ∀ source root,
    Persists CompileError.isLimit (dialect.compile source root) (dialect'.compile source root)

namespace Extract

variable {dialect dialect' : Dialect Category}

theorem persists_compileLogic (h : dialect.Widens dialect') (source : String)
    (root : RootKind) :
    Persists ContentError.isLimit (compileLogic dialect source root)
      (compileLogic dialect' source root) := by
  have hcompile := h source root
  intro hlimit
  unfold compileLogic at hlimit ⊢
  cases hresult : dialect.compile source root with
  | error e =>
    rw [hresult] at hcompile hlimit
    rw [hcompile]
    rintro _ ⟨⟩
    exact hlimit (.logic source e) rfl
  | ok snippet =>
    rw [hresult] at hcompile
    rw [hcompile (by simp)]

theorem persists_headAt (h : dialect.Widens dialect') (children : List Range) :
    Persists ContentError.isLimit (headAt dialect children) (headAt dialect' children) := by
  unfold headAt
  split
  · split
    · exact .refl _
    · split
      · exact .refl _
      · exact (persists_compileLogic h _ _).map _
  · exact .refl _
  · exact .refl _

theorem persists_head (h : dialect.Widens dialect') (children : List Range) :
    Persists ContentError.isLimit (head dialect children) (head dialect' children) := by
  unfold head
  split
  · split
    · exact (persists_headAt h _).map _
    · exact persists_headAt h _
  · exact persists_headAt h _

theorem persists_insertion (h : dialect.Widens dialect') (children : List Range) :
    Persists ContentError.isLimit (insertion dialect children)
      (insertion dialect' children) := by
  unfold insertion
  split
  · exact .refl _
  · exact .refl _
  · -- The text splits into an expression and a formatter in the same way; only the expression
    -- is compiled.
    have hcompiled (expression : String) (formatter : Option String) :
        Persists ContentError.isLimit
          (if expression.isEmpty then .error (.markup .malformedInsert)
          else (compileLogic dialect expression .expression).map fun logic =>
            (⟨.insert, logic, formatter⟩ : Dependency))
          (if expression.isEmpty then .error (.markup .malformedInsert)
          else (compileLogic dialect' expression .expression).map fun logic =>
            ⟨.insert, logic, formatter⟩) := by
      split
      · exact .refl _
      · exact (persists_compileLogic h _ _).map _
    dsimp only
    split
    · exact .bind (.refl _) fun _ => hcompiled _ _
    · exact .bind (.refl _) fun _ => hcompiled _ _
  · exact .refl _

mutual

theorem persists_node (h : dialect.Widens dialect') (next : Nat) :
    ∀ r : Range, Persists ContentError.isLimit (node dialect next r) (node dialect' next r)
  | .text s => .refl _
  | .node kind children => by
    cases kind with
    | conditional =>
      rw [node, node]
      refine (persists_head h children).bind fun _ => ?_
      exact (persists_nodesOf h (next + 1) children).bind fun _ => .refl _
    | insert =>
      rw [node, node]
      exact (persists_insertion h children).bind fun _ => .refl _
    | rawScript => exact .refl _
    | lineBreak => exact .refl _
    | horizontalRule => exact .refl _
    | _ =>
      simp only [node]
      exact (persists_nodesOf h next children).bind fun _ => .refl _

theorem persists_nodesOf (h : dialect.Widens dialect') (next : Nat) :
    ∀ rs : List Range,
      Persists ContentError.isLimit (nodesOf dialect next rs) (nodesOf dialect' next rs)
  | [] => .refl _
  | r :: rs => by
    rw [nodesOf, nodesOf]
    refine (persists_node h next r).bind fun found => ?_
    exact (persists_nodesOf h (next + found.2.length) rs).bind fun _ => .refl _

end

end Extract

/-- Each limit is at most that of the others. -/
structure Limits.Within (l l' : Limits) : Prop where
  steps : l.maxLexIterations ≤ l'.maxLexIterations
  depth : l.maxNestingDepth ≤ l'.maxNestingDepth
  tokens : l.maxLogicTokens ≤ l'.maxLogicTokens

namespace Compiler

variable {c c' : Compiler}

theorem persists_compileLogic (h : c.limits.Within c'.limits) (source : String)
    (root : RootKind) :
    Persists CompileError.isLimit (c.compileLogic source root) (c'.compileLogic source root) :=
  Dialect.persists_compile h.steps h.tokens source root

theorem persists_compileContent (h : c.limits.Within c'.limits) (source : String)
    (collect : Bool) :
    Persists ContentError.isLimit (c.compileContent source collect)
      (c'.compileContent source collect) := by
  unfold compileContent Content.compile
  refine .bind ((Scanner.persists_scan h.steps source).mapError fun _ => rfl) fun tokens => ?_
  refine .bind (.refl _) fun events => ?_
  refine .bind ((Range.persists_ofEvents h.depth events).mapError fun _ => rfl) fun tree => ?_
  exact .bind (Extract.persists_nodesOf (persists_compileLogic h) 0 _) fun _ => .refl _

/-- Under wider limits logic and content compile to the same, or fail in the same way, unless
they failed at a limit. -/
theorem limits_only_reject (c c' : Compiler) (h : c.limits.Within c'.limits) (source : String) :
    (∀ root, (∀ e, c.compileLogic source root = .error e → e.isLimit = false) →
      c'.compileLogic source root = c.compileLogic source root) ∧
    (∀ collect, (∀ e, c.compileContent source collect = .error e → e.isLimit = false) →
      c'.compileContent source collect = c.compileContent source collect) :=
  ⟨persists_compileLogic h source, persists_compileContent h source⟩

def tight : Compiler := ⟨⟨4, 2, 3⟩⟩

/-- As logic the text is refused for its bracket, and as content it compiles. -/
theorem limits_only_reject_insert :
    compileLogic tight "[+b+1+]" .expression = .error (.lex (.unrecognized 0 "[")) ∧
      compileLogic ⟨Limits.standard⟩ "[+b+1+]" .expression =
        .error (.lex (.unrecognized 0 "[")) ∧
      (compileContent tight "[+b+1+]" false).toBool = true ∧
      compileContent ⟨Limits.standard⟩ "[+b+1+]" false =
        compileContent tight "[+b+1+]" false := by
  have hlogic :
      compileLogic tight "[+b+1+]" .expression = .error (.lex (.unrecognized 0 "[")) := by
    have hmap : (compileLogic tight "[+b+1+]" .expression).map (fun _ => ()) =
        .error (.lex (.unrecognized 0 "[")) := by decide +kernel
    cases h : compileLogic tight "[+b+1+]" .expression with
    | error e =>
      rw [h] at hmap
      cases hmap
      rfl
    | ok snippet =>
      rw [h] at hmap
      cases hmap
  have hcontent : (compileContent tight "[+b+1+]" false).toBool = true := by decide +kernel
  obtain ⟨hsame, hsame'⟩ := limits_only_reject tight ⟨Limits.standard⟩
    ⟨by decide, by decide, by decide⟩ "[+b+1+]"
  have hlogic' := hsame .expression fun e he => by
    rw [hlogic] at he
    cases he
    rfl
  have hcontent' := hsame' false fun e he => by
    rw [he] at hcontent
    cases hcontent
  exact ⟨hlogic, hlogic'.trans hlogic, hcontent, hcontent'⟩

end Compiler

end Fabula
