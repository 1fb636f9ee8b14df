import Fabula.Scan

/-!
The markers of marked-up text. Markers of paragraphs are looked for only when paragraphs are
collected.
-/
namespace Fabula

inductive Feature where
  | emphasis | strongEmphasis
  | insertOpen | insertClose
  | conditionalOpen | conditionalClose
  | hiddenOpen | hiddenClose
  | rawOpen | rawClose
  | lineBreak
  | paragraphBreak | horizontalRule | quotation | attribution | heading
  deriving DecidableEq, Repr

namespace Feature

open Pattern

/-- Spaces and tabs, as many as there are. -/
def indent : Pattern := many (one fun c => c == ' ' || c == '\t')

/-- A line feed, possibly after a carriage return. -/
def newline : Pattern := seq (opt true (char '\r')) (char '\n')

/-- Two slashes at the end of a line or of the text. -/
def slashes : Pattern := seq (lit "//") (seq indent (alt newline textEnd))

/-- A line end and at least one blank line after it. -/
def blankLines : Pattern := seq newline (some1 (seq indent newline))

def dashes : Pattern := seq lineStart (seq indent (seq (lit "---") (seq indent lineEnd)))

/-- A marker at the start of a line. -/
def lineMarker (marker : String) : Pattern := seq lineStart (seq indent (lit marker))

def inlineRules : List (Rule Feature) :=
  [.tagged strongEmphasis (lit "**"), .tagged emphasis (lit "*"),
   .tagged insertOpen (lit "[+"), .tagged insertClose (lit "+]"),
   .tagged conditionalOpen (lit "[?"), .tagged conditionalClose (lit "?]"),
   .tagged hiddenOpen (lit "["), .tagged hiddenClose (lit "]"),
   .tagged rawOpen (lit "\x7b!"), .tagged rawClose (lit "!\x7d"),
   .tagged lineBreak slashes]

def paragraphRules : List (Rule Feature) :=
  [.tagged paragraphBreak blankLines, .tagged horizontalRule dashes,
   .tagged attribution (lineMarker ">>"), .tagged quotation (lineMarker ">"),
   .tagged heading (lineMarker "=")]

/-- The scanner's table for a number of steps. -/
def table (collect : Bool) (maxSteps : Nat) : Table Feature :=
  ⟨if collect then inlineRules ++ paragraphRules else inlineRules, maxSteps⟩

end Feature

end Fabula
