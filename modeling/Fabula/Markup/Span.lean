/-!
The kinds of spans in marked-up text, and the ways in which markup can be malformed.
-/
namespace Fabula

inductive SpanKind where
  | document
  | paragraph | quotation | attribution | heading
  | emphasis | strongEmphasis
  | hidden | conditional | insert | rawScript
  | lineBreak | horizontalRule
  deriving DecidableEq, Repr

namespace SpanKind

/-- Kinds that stand for a block of text of its own. -/
def isParagraphLike : SpanKind → Bool
  | paragraph | quotation | attribution | heading => true
  | _ => false

def isSingle : SpanKind → Bool
  | lineBreak | horizontalRule => true
  | _ => false

/-- The word for a kind in messages. -/
def name : SpanKind → String
  | document => "document"
  | paragraph => "paragraph"
  | quotation => "quotation"
  | attribution => "attribution"
  | heading => "heading"
  | emphasis => "emphasis"
  | strongEmphasis => "strong emphasis"
  | hidden => "hidden span"
  | conditional => "conditional"
  | insert => "insert"
  | rawScript => "raw script"
  | lineBreak => "line break"
  | horizontalRule => "horizontal rule"

end SpanKind

/-- How markup can be malformed. Offsets count bytes. -/
inductive MarkupError where
  | nestedInsert (offset : Nat)
  | nestedHidden (offset : Nat) (within : SpanKind)
  | unclosed (kind : SpanKind) (offset : Nat)
  | unclosedAtBreak (kind : SpanKind) (opened offset : Nat)
  | tooDeep (limit : Nat)
  | malformedConditional
  | malformedInsert
  | invalidDisplayName (name : String)
  deriving DecidableEq, Repr

def MarkupError.message : MarkupError → String
  | nestedInsert offset => s!"insert opened inside another insert at offset {offset}"
  | nestedHidden offset within =>
    let outer := within.name
    s!"hidden span opened inside {outer} at offset {offset}"
  | unclosed kind offset =>
    let name := kind.name
    s!"{name} opened at offset {offset} is never closed"
  | unclosedAtBreak kind opened offset =>
    let name := kind.name
    s!"{name} opened at offset {opened} is still open at paragraph break {offset}"
  | tooDeep limit => s!"markup nested deeper than {limit} levels"
  | malformedConditional =>
    "conditional must begin with 'if <condition>:' or a raw script followed by ':'"
  | malformedInsert =>
    "insert must hold one expression or raw script, optionally followed by ': formatter'"
  | invalidDisplayName name => s!"invalid display formatter name '{name}'"

end Fabula
