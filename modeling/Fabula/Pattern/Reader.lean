import Fabula.Pattern.Basic
import Fabula.Text.Blank

/-!
The written form of patterns: literals, escapes, classes in brackets, groups, alternatives with
a bar, the repetitions `*`, `+`, `?` and counts in braces (each lazy when a `?` follows), the
anchors `^` and `$`, and the flags `i` (any letter case) and `m` (anchors at lines).
-/
namespace Fabula.Pattern

structure Flags where
  anyCase : Bool
  lines : Bool

/-- The characters that are read like `c` when letter case does not matter. -/
def caseVariants (c : Char) : List Char :=
  let lower := foldCase c
  let further := if lower == 's' then [Char.ofNat 0x17F]
    else if lower == 'k' then [Char.ofNat 0x212A] else []
  lower :: lower.toUpper :: further

/-- A class under the flags: in any letter case it has a character as soon as it has a
variant. -/
def Flags.accepting (flags : Flags) (accepts : Char → Bool) (c : Char) : Bool :=
  if flags.anyCase then (caseVariants c).any accepts else accepts c

def escapedClass : Char → Option (Char → Bool)
  | 's' => some Text.isBlank
  | 'S' => some fun c => !Text.isBlank c
  | 'w' => some Text.isWord
  | 'W' => some fun c => !Text.isWord c
  | _ => none

def escapedChar : Char → Option Char
  | 'n' => some '\n'
  | 'r' => some '\r'
  | 't' => some '\t'
  | 'f' => some (Char.ofNat 0x0C)
  | 'v' => some (Char.ofNat 0x0B)
  | 'a' => some (Char.ofNat 0x07)
  | c => if c.toNat < 128 && !c.isAlphanum && c != '<' && c != '>' then some c else none

def escapedCheck : Char → Option Pattern
  | 'z' => some textEnd
  | 'A' => some textStart
  | 'b' => some wordBoundary
  | 'B' => some (check fun p => !atWordBoundary p)
  | _ => none

def readClassChar : List Char → Option (Char × List Char)
  | '\\' :: c :: rest => (escapedChar c).map (·, rest)
  | '\\' :: [] => none
  | '[' :: _ => none
  | c :: rest => some (c, rest)
  | [] => none

def readSpan (cs : List Char) : Option ((Char → Bool) × List Char) :=
  match readClassChar cs with
  | none => none
  | some (low, '-' :: ']' :: rest) => some ((· == low), '-' :: ']' :: rest)
  | some (low, '-' :: rest) =>
    match readClassChar rest with
    | some (high, rest) =>
      if low ≤ high then some (fun c => low ≤ c && c ≤ high, rest) else none
    | none => none
  | some (low, rest) => some ((· == low), rest)

/-- Read one member of a class: an escaped class, a character or a range of characters. A dash
before the closing bracket stands for itself. -/
def readMember (cs : List Char) : Option ((Char → Bool) × List Char) :=
  match cs with
  | '\\' :: e :: rest =>
    match escapedClass e with
    | some accepts => some (accepts, rest)
    | none => readSpan cs
  | _ => readSpan cs

/-- Read the members of a class up to its closing bracket; `first` while none has been read,
when a bracket stands for itself. -/
def readClass (accepts : Char → Bool) (first : Bool) :
    Nat → List Char → Option ((Char → Bool) × List Char)
  | 0, _ => none
  | n + 1, cs =>
    if !first && cs.head? == some ']' then some (accepts, cs.tail)
    else
      match readMember cs with
      | some (more, rest) => readClass (fun c => accepts c || more c) false n rest
      | none => none

/-- Read the flags of a group up to the character that ends them. -/
def readFlags (flags : Flags) : List Char → Option (Flags × Char × List Char)
  | 'i' :: rest => readFlags { flags with anyCase := true } rest
  | 'm' :: rest => readFlags { flags with lines := true } rest
  | ':' :: rest => some (flags, ':', rest)
  | ')' :: rest => some (flags, ')', rest)
  | _ => none

def readCount (cs : List Char) : Option (Nat × List Char) :=
  let digits := cs.takeWhile Char.isDigit
  if digits.isEmpty then none
  else some (digits.foldl (fun n d => 10 * n + (d.toNat - 48)) 0, cs.dropWhile Char.isDigit)

/-- Take the mark that makes a repetition lazy: whether it is greedy, and the rest. -/
def readGreed : List Char → Bool × List Char
  | '?' :: rest => (false, rest)
  | rest => (true, rest)

/-- Read the counts of a repetition after its opening brace. -/
def readCounted (atom : Pattern) (cs : List Char) : Option (Pattern × List Char) := do
  let (least, rest) ← readCount cs
  match rest with
  | '}' :: rest =>
    let (_, rest) := readGreed rest
    some (times atom least, rest)
  | ',' :: '}' :: rest =>
    let (greedy, rest) := readGreed rest
    some (seq (times atom least) (star greedy atom), rest)
  | ',' :: rest => do
    let (most, rest) ← readCount rest
    match rest with
    | '}' :: rest =>
      let (greedy, rest) := readGreed rest
      if least ≤ most then some (seq (times atom least) (upTo greedy atom (most - least)), rest)
      else none
    | _ => none
  | _ => none

def readRepeats (atom : Pattern) : Nat → List Char → Option (Pattern × List Char)
  | 0, _ => none
  | n + 1, cs =>
    match cs with
    | '*' :: rest =>
      let (greedy, rest) := readGreed rest
      readRepeats (star greedy atom) n rest
    | '+' :: rest =>
      let (greedy, rest) := readGreed rest
      readRepeats (seq atom (star greedy atom)) n rest
    | '?' :: rest =>
      let (greedy, rest) := readGreed rest
      readRepeats (opt greedy atom) n rest
    | '{' :: rest =>
      match readCounted atom rest with
      | some (counted, rest) => readRepeats counted n rest
      | none => none
    | _ => some (atom, cs)

def readAtom (flags : Flags) : List Char → Option (Pattern × List Char)
  | '[' :: '^' :: rest =>
    (readClass (fun _ => false) true (rest.length + 1) rest).map fun (accepts, rest) =>
      (one fun c => !flags.accepting accepts c, rest)
  | '[' :: rest =>
    (readClass (fun _ => false) true (rest.length + 1) rest).map fun (accepts, rest) =>
      (one (flags.accepting accepts), rest)
  | '.' :: rest => some (one (· != '\n'), rest)
  | '^' :: rest => some (if flags.lines then lineStart else textStart, rest)
  | '$' :: rest => some (if flags.lines then lineEnd else textEnd, rest)
  | '\\' :: c :: rest =>
    match escapedCheck c, escapedClass c, escapedChar c with
    | some test, _, _ => some (test, rest)
    | _, some accepts, _ => some (one accepts, rest)
    | _, _, some d => some (char d, rest)
    | _, _, _ => none
  | c :: rest =>
    if ['*', '+', '?', '{', '\\'].contains c then none
    else some (one (flags.accepting (· == c)), rest)
  | [] => none

mutual

/-- Read alternatives up to the end or a closing parenthesis. -/
def readAlternatives (flags : Flags) : Nat → List Char → Option (Pattern × List Char)
  | 0, _ => none
  | n + 1, cs =>
    match readSequence flags empty n cs with
    | some (first, flags, '|' :: rest) =>
      (readAlternatives flags n rest).map fun (second, rest) => (alt first second, rest)
    | some (first, _, rest) => some (first, rest)
    | none => none

/-- Read a sequence after `done`; flags set inside it hold from there on. -/
def readSequence (flags : Flags) (done : Pattern) :
    Nat → List Char → Option (Pattern × Flags × List Char)
  | 0, _ => none
  | n + 1, cs =>
    match cs with
    | [] => some (done, flags, [])
    | '|' :: _ => some (done, flags, cs)
    | ')' :: _ => some (done, flags, cs)
    | '(' :: '?' :: rest =>
      match readFlags flags rest with
      | some (set, ')', rest) => readSequence set done n rest
      | some (set, _, rest) => readGroup flags set done n rest
      | none => none
    | '(' :: rest => readGroup flags flags done n rest
    | _ =>
      match readAtom flags cs with
      | some (atom, rest) => readItem flags done atom n rest
      | none => none

/-- Read a group under the flags `inner`, then go on under `flags`. -/
def readGroup (flags inner : Flags) (done : Pattern) :
    Nat → List Char → Option (Pattern × Flags × List Char)
  | 0, _ => none
  | n + 1, cs =>
    match readAlternatives inner n cs with
    | some (body, ')' :: rest) => readItem flags done body n rest
    | _ => none

/-- Read what repeats `atom`, then the rest of the sequence. -/
def readItem (flags : Flags) (done atom : Pattern) :
    Nat → List Char → Option (Pattern × Flags × List Char)
  | 0, _ => none
  | n + 1, cs =>
    match readRepeats atom (n + 1) cs with
    | some (item, rest) => readSequence flags (seq done item) n rest
    | none => none

end
/-- Read a pattern from its written form; `none` when the form is malformed. -/
def read (written : String) : Option Pattern :=
  let cs := written.toList
  match readAlternatives ⟨false, false⟩ (4 * cs.length + 4) cs with
  | some (pattern, []) => some pattern
  | _ => none

end Fabula.Pattern
