import Fabula.Text.Word

/-!
Patterns over texts. A pattern is tried at a place of a text and prefers some ways of matching
over others: the first alternative over the second, one more round of a repetition over stopping
when it is greedy. The first way in that order that lets the rest of the pattern succeed is the
match.
-/
namespace Fabula

/-- A place in a text: the character just before it, if any, and the text after it with its
length. -/
structure Place where
  before : Option Char
  after : List Char
  left : Nat
  left_eq : left = after.length

namespace Place

/-- The place at the start of a text. -/
def start (text : List Char) : Place := ⟨none, text, text.length, rfl⟩

/-- The character after a place, and the place behind that character. -/
def next? (p : Place) : Option (Char × Place) :=
  match h : p.after with
  | [] => none
  | c :: cs => some (c, ⟨some c, cs, p.left - 1, by simp [p.left_eq, h]⟩)

def last (p : Place) : Place := ⟨p.after.getLast?.or p.before, [], 0, rfl⟩

/-- The text from one place up to a later one. -/
def upTo (p q : Place) : List Char := p.after.take (p.left - q.left)

end Place

inductive Pattern where
  /-- The empty text. -/
  | empty
  /-- One character that satisfies a test. -/
  | one (accepts : Char → Bool)
  /-- The empty text at a place that satisfies a test. -/
  | check (holds : Place → Bool)
  | seq (first second : Pattern)
  /-- Either pattern; the first is preferred. -/
  | alt (first second : Pattern)
  /-- Any number of rounds of `body`; a greedy repetition prefers more rounds. -/
  | star (greedy : Bool) (body : Pattern)

namespace Pattern

/-- At most `n` rounds of `body`; a round that takes no character is the last. -/
def rounds {α : Type} (greedy : Bool) (body : Place → (Place → Option α) → Option α) :
    Nat → Place → (Place → Option α) → Option α
  | 0, p, k => k p
  | n + 1, p, k =>
    let more (_ : Unit) := body p fun q =>
      if q.left < p.left then rounds greedy body n q k else k q
    if greedy then (more ()).orElse fun _ => k p else (k p).orElse more

/-- Match a pattern at a place and go on with `k` from where it stops: the result is that of the
most preferred way to match for which `k` succeeds. -/
def run {α : Type} : Pattern → Place → (Place → Option α) → Option α
  | empty, p, k => k p
  | one accepts, p, k =>
    match p.next? with
    | none => none
    | some (c, q) => if accepts c then k q else none
  | check holds, p, k => if holds p then k p else none
  | seq a b, p, k => a.run p fun q => b.run q k
  | alt a b, p, k => (a.run p k).orElse fun _ => b.run p k
  | star greedy body, p, k => rounds greedy (fun q l => body.run q l) p.left p k

/-- The place where the match of a pattern at `p` stops. -/
def match? (pattern : Pattern) (p : Place) : Option Place :=
  pattern.run p some

def char (c : Char) : Pattern := one (· == c)

/-- The given characters in order. -/
def text : List Char → Pattern
  | [] => empty
  | [c] => char c
  | c :: cs => seq (char c) (text cs)

def lit (s : String) : Pattern := text s.toList

def many (body : Pattern) : Pattern := star true body

/-- As many rounds of a pattern as possible, at least one. -/
def some1 (body : Pattern) : Pattern := seq body (many body)

/-- A pattern or the empty text, preferring the pattern when greedy. -/
def opt (greedy : Bool) (body : Pattern) : Pattern :=
  if greedy then alt body empty else alt empty body

def times (body : Pattern) : Nat → Pattern
  | 0 => empty
  | n + 1 => seq body (times body n)

def upTo (greedy : Bool) (body : Pattern) : Nat → Pattern
  | 0 => empty
  | n + 1 => opt greedy (seq body (upTo greedy body n))

/-- The letter that a character is read as when letter case does not matter: the lower case of
an ASCII letter, which the long s and the Kelvin sign share with `s` and `k`. -/
def foldCase (c : Char) : Char :=
  if c.toNat == 0x17F then 's' else if c.toNat == 0x212A then 'k' else c.toLower

def anyCaseText : List Char → Pattern
  | [] => empty
  | [c] => one fun d => foldCase d == foldCase c
  | c :: cs => seq (one fun d => foldCase d == foldCase c) (anyCaseText cs)

def anyCase (s : String) : Pattern := anyCaseText s.toList

def textStart : Pattern := check fun p => p.before.isNone

def textEnd : Pattern := check fun p => p.after.isEmpty

/-- The start of a line; only a line feed ends a line. -/
def lineStart : Pattern := check fun p => p.before.isNone || p.before == some '\n'

def lineEnd : Pattern := check fun p => p.after.isEmpty || p.after.head? == some '\n'

/-- Whether a word character stands on exactly one side of a place. -/
def atWordBoundary (p : Place) : Bool :=
  p.before.any Text.isWord != p.after.head?.any Text.isWord

/-- The border between a word and what is no word. -/
def wordBoundary : Pattern := check atWordBoundary

end Pattern

end Fabula
