import Fabula.Markup.Range
import Fabula.Text.Blank

/-!
Tidying range trees: texts that follow each other are joined, blank runs become one space, text
is trimmed at the edges of paragraphs and before line breaks, and what is empty is dropped. Raw
script is kept as it is unless it is blank.
-/
namespace Fabula.Range

def plainText : List Range → String
  | [] => ""
  | text s :: rest => s ++ plainText rest
  | node _ _ :: rest => plainText rest

/-- Put a range before others, joining two texts. -/
def consJoined : Range → List Range → List Range
  | text a, text b :: rest => text (a ++ b) :: rest
  | r, rest => r :: rest

def collapseTexts : List Range → List Range
  | [] => []
  | text s :: rest => text (Text.collapse s) :: collapseTexts rest
  | r :: rest => r :: collapseTexts rest

def startsWithBreak : List Range → Bool
  | node .lineBreak _ :: _ => true
  | _ => false

/-- Trim the end of each text before a line break. -/
def trimBeforeBreaks : List Range → List Range
  | [] => []
  | text s :: rest =>
    text (if startsWithBreak rest then Text.trimEnd s else s) :: trimBeforeBreaks rest
  | r :: rest => r :: trimBeforeBreaks rest

/-- Trim the start of a text that comes first. -/
def trimFirst : List Range → List Range
  | text s :: rest => text (Text.trimStart s) :: rest
  | rs => rs

def trimLast : List Range → List Range
  | [] => []
  | [text s] => [text (Text.trimEnd s)]
  | r :: rest => r :: trimLast rest

def isEmptyText : Range → Bool
  | text s => s.isEmpty
  | node _ _ => false

/-- Tidy the texts among the children of a span. -/
def tidyTexts (kind : SpanKind) (children : List Range) : List Range :=
  let children := trimBeforeBreaks (collapseTexts children)
  let children := if kind.isParagraphLike then trimLast (trimFirst children) else children
  children.filter (!·.isEmptyText)

mutual

/-- Tidy a range; `none` when nothing is left of it. -/
def tidy : Range → Option Range
  | text s => some (text s)
  | node kind children =>
    if kind.isSingle then some (node kind [])
    else if kind = .rawScript then
      let source := plainText children
      if Text.isBlankText source then none else some (node kind [text source])
    else
      let children := tidyTexts kind (tidyAll children)
      if children.isEmpty && kind != .document then none else some (node kind children)

/-- Tidy ranges that follow each other, dropping what nothing is left of and joining texts. -/
def tidyAll : List Range → List Range
  | [] => []
  | r :: rest =>
    match r.tidy with
    | some kept => consJoined kept (tidyAll rest)
    | none => tidyAll rest

end

end Fabula.Range
