import Fabula.Pattern.Basic

/-!
Scanning a text into tokens by rules. From the current place the rule whose match starts
earliest wins, then the longest match, then the rule that stands first. Text that no rule claims
is kept as an untagged token or is an error, so the stretches of a scan tile the text. A cap on
the steps stops a scan that an empty match would keep in place.
-/
namespace Fabula

/-- A piece of a text with the tag of the rule that claimed it and its offset in bytes. -/
structure Token (τ : Type) where
  tag : Option τ
  start : Nat
  text : String
  deriving DecidableEq, Repr

namespace Token

variable {τ : Type}

/-- The length of a token in bytes. -/
def size (t : Token τ) : Nat := t.text.utf8ByteSize

/-- The offset just after a token. -/
def stop (t : Token τ) : Nat := t.start + t.size

end Token

inductive Effect (τ : Type) where
  /-- It is a token with this tag. -/
  | tagged (tag : τ)
  /-- It is left out. -/
  | discarded
  /-- It is a token without a tag. -/
  | untagged

structure Hit (τ : Type) where
  effect : Effect τ
  start : Place
  stop : Place

/-- A stretch of a text, claimed by a rule or by none. -/
inductive Stretch (τ : Type) where
  | unclaimed (text : List Char)
  | claimed (effect : Effect τ) (text : List Char)

inductive ScanError where
  | unrecognized (offset : Nat) (text : String)
  | runaway (limit : Nat)
  deriving DecidableEq, Repr

def ScanError.message : ScanError → String
  | unrecognized offset text => s!"unrecognized input at offset {offset}: '{text}'"
  | runaway limit => s!"tokenizer made no progress within {limit} iterations"

def defaultMaxSteps : Nat := 100000

/-- What is found from a place on, and the number of steps that a scan may take. -/
structure Scanner (τ : Type) where
  next? : Place → Option (Hit τ)
  maxSteps : Nat

namespace Scanner

variable {τ : Type}

/-- One step of a scan: the stretches it finds, and the place where it goes on. -/
def step (s : Scanner τ) (p : Place) : List (Stretch τ) × Place :=
  match s.next? p with
  | none => ([.unclaimed p.after], p.last)
  | some hit =>
    let found := .claimed hit.effect (hit.start.upTo hit.stop)
    (if hit.start.left < p.left then [.unclaimed (p.upTo hit.start), found]
     else [found], hit.stop)

/-- Add the token of a stretch, if it has one. Unclaimed text is an error unless `lenient`. -/
def emit (lenient : Bool) (offset : Nat) (out : Array (Token τ)) :
    Stretch τ → Except ScanError (Nat × Array (Token τ))
  | .unclaimed text =>
    let text := String.ofList text
    if lenient then .ok (offset + text.utf8ByteSize, out.push ⟨none, offset, text⟩)
    else .error (.unrecognized offset text)
  | .claimed effect text =>
    let text := String.ofList text
    let next := offset + text.utf8ByteSize
    match effect with
    | .tagged tag => .ok (next, out.push ⟨some tag, offset, text⟩)
    | .discarded => .ok (next, out)
    | .untagged => .ok (next, out.push ⟨none, offset, text⟩)

def scanFrom (s : Scanner τ) (lenient : Bool) :
    Nat → Nat → Place → Array (Token τ) → Except ScanError (Array (Token τ))
  | 0, _, p, out => if p.left = 0 then .ok out else .error (.runaway s.maxSteps)
  | budget + 1, offset, p, out =>
    if p.left = 0 then .ok out
    else
      let (stretches, next) := s.step p
      match stretches.foldlM (fun (offset, out) => emit lenient offset out) (offset, out) with
      | .ok (offset, out) => scanFrom s lenient budget offset next out
      | .error e => .error e

/-- The tokens of a text. A lenient scan keeps text that no rule claims as untagged tokens; a
strict one rejects it. -/
def scan (s : Scanner τ) (lenient : Bool) (source : String) :
    Except ScanError (List (Token τ)) :=
  (s.scanFrom lenient s.maxSteps 0 (.start source.toList) #[]).map Array.toList

end Scanner

/-- A rule by what it finds in a text from a place on, where its match begins and where it
stops. It may look at all of the text. -/
structure Finder (τ : Type) where
  find? : List Char → Place → Option (Place × Place)
  effect : Effect τ

namespace Finder

variable {τ : Type}

def Beats (found other : Place × Place) : Prop :=
  other.1.left < found.1.left ∨ found.1.left = other.1.left ∧ found.2.left < other.2.left

instance (found other : Place × Place) : Decidable (Beats found other) :=
  inferInstanceAs (Decidable (_ ∨ _))

def consider (text : List Char) (p : Place) (best : Option (Hit τ)) (f : Finder τ) :
    Option (Hit τ) :=
  match f.find? text p with
  | none => best
  | some found =>
    if best.all fun hit => Beats found (hit.start, hit.stop) then
      some ⟨f.effect, found.1, found.2⟩
    else best

def best (finders : List (Finder τ)) (text : List Char) (p : Place) : Option (Hit τ) :=
  finders.foldl (consider text p) none

/-- The tokens of a text by rules in order of priority, within a number of steps. -/
def scan (finders : List (Finder τ)) (maxSteps : Nat) (lenient : Bool) (source : String) :
    Except ScanError (List (Token τ)) :=
  Scanner.scan ⟨best finders source.toList, maxSteps⟩ lenient source

end Finder

structure Rule (τ : Type) where
  pattern : Pattern
  effect : Effect τ

namespace Rule

variable {τ : Type}

def tagged (tag : τ) (pattern : Pattern) : Rule τ := ⟨pattern, .tagged tag⟩

def discarded (pattern : Pattern) : Rule τ := ⟨pattern, .discarded⟩

end Rule

/-- Rules in order of priority and the number of steps a scan may take. -/
structure Table (τ : Type) where
  rules : List (Rule τ)
  maxSteps : Nat := defaultMaxSteps

namespace Table

variable {τ : Type}

/-- The longest match at a place among the rules, of the first rule that has it. -/
def bestOf (p : Place) : List (Rule τ) → Option (Hit τ)
  | [] => none
  | rule :: rules =>
    match rule.pattern.match? p, bestOf p rules with
    | none, later => later
    | some stop, none => some ⟨rule.effect, p, stop⟩
    | some stop, some later =>
      if later.stop.left < stop.left then some later
      else some ⟨rule.effect, p, stop⟩

/-- The best match at the first place at or after a place where some rule matches; the end of
the text is such a place too. There are at most `n` places to go on to. -/
def seek (rules : List (Rule τ)) : Nat → Place → Option (Hit τ)
  | 0, p => bestOf p rules
  | n + 1, p =>
    match bestOf p rules with
    | some hit => some hit
    | none =>
      match p.next? with
      | some (_, q) => seek rules n q
      | none => none

/-- Patterns match wherever they can, so all rules are tried at one place before the next. -/
def scanner (t : Table τ) : Scanner τ := ⟨fun p => seek t.rules p.left p, t.maxSteps⟩

/-- The tokens of a text by a table. -/
def scan (t : Table τ) (lenient : Bool) (source : String) : Except ScanError (List (Token τ)) :=
  t.scanner.scan lenient source

end Table

end Fabula
