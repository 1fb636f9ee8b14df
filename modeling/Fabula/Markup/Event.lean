import Fabula.Markup.Feature
import Fabula.Markup.Span

/-!
Boundary events. A marker means different things depending on the spans that are open; the
resolver follows them and turns a list of markers and texts into starts and ends of spans,
single leaves and text.
-/
namespace Fabula

inductive Event where
  | text (s : String)
  | start (kind : SpanKind)
  | stop (kind : SpanKind)
  | single (kind : SpanKind)
  deriving DecidableEq, Repr

def Event.coalesce : List Event → List Event
  | [] => []
  | .text a :: rest =>
    match coalesce rest with
    | .text b :: rest => .text (a ++ b) :: rest
    | rest => .text a :: rest
  | e :: rest => e :: coalesce rest

structure Opening where
  kind : SpanKind
  offset : Nat
  /-- The condition of a conditional reaches up to its first colon. -/
  awaitingColon : Bool
  deriving DecidableEq, Repr

/-- What is open: emphasis, bracket spans (both innermost first) and the paragraph's kind. -/
structure Resolver where
  styles : List SpanKind
  opened : List Opening
  paragraph : SpanKind
  deriving DecidableEq, Repr

namespace Resolver

/-- What a marker does: the new state and the events it gives. -/
abbrev Step := Except MarkupError (Resolver × List Event)

/-- The document begins with a plain paragraph. -/
def initial : Resolver := ⟨[], [], .paragraph⟩

def inside (r : Resolver) (kind : SpanKind) : Bool := r.opened.any (·.kind == kind)

/-- Whether only logic can stand here: in an insert, or in a condition before its colon. -/
def inLogic (r : Resolver) : Bool :=
  match r.opened with
  | [] => false
  | top :: _ => top.kind == .insert || top.awaitingColon

/-- Text; a colon ends the condition of the innermost span. -/
def text (r : Resolver) (s : String) : Resolver × List Event :=
  let opened := match r.opened with
    | [] => []
    | top :: rest =>
      if top.awaitingColon && s.toList.contains ':' then
        { top with awaitingColon := false } :: rest
      else top :: rest
  ({ r with opened }, [.text s])

def enter (r : Resolver) (kind : SpanKind) (offset : Nat) : Resolver × List Event :=
  ({ r with opened := ⟨kind, offset, kind == .conditional⟩ :: r.opened }, [.start kind])

def leave (r : Resolver) (kind : SpanKind) : Resolver × List Event :=
  ({ r with opened := r.opened.eraseP (·.kind == kind) }, [.stop kind])

def toggle (r : Resolver) (kind : SpanKind) : Resolver × List Event :=
  if r.styles.contains kind then ({ r with styles := r.styles.erase kind }, [.stop kind])
  else ({ r with styles := kind :: r.styles }, [.start kind])

/-- A closer of two characters closes its own span, or else a hidden span with its first
character kept as text, or is text. -/
def leaveOrHidden (r : Resolver) (kind : SpanKind) (first : String) (t : Token Feature) :
    Resolver × List Event :=
  if r.inside kind then r.leave kind
  else if r.inside .hidden then
    let (r, before) := r.text first
    let (r, after) := r.leave .hidden
    (r, before ++ after)
  else r.text t.text

/-- End the paragraph and begin one of the given kind, with a leaf between them if one is given.
Open emphasis ends with the one and begins again with the other; an open bracket span is an
error. -/
def newParagraph (r : Resolver) (kind : SpanKind) (between : Option SpanKind)
    (offset : Nat) : Step :=
  match r.opened.getLast? with
  | some span => .error (.unclosedAtBreak span.kind span.offset offset)
  | none =>
    .ok ({ r with paragraph := kind },
      r.styles.map .stop ++ .stop r.paragraph :: between.toList.map .single ++
        .start kind :: r.styles.reverse.map .start)

def continueParagraph (r : Resolver) (kind : SpanKind) (offset : Nat) : Step :=
  if r.paragraph = kind then .ok (r, []) else r.newParagraph kind none offset

def mark (r : Resolver) (feature : Feature) (t : Token Feature) : Step :=
  match feature with
  | .emphasis => .ok (if r.inLogic then r.text t.text else r.toggle .emphasis)
  | .strongEmphasis => .ok (if r.inLogic then r.text t.text else r.toggle .strongEmphasis)
  | .insertOpen =>
    if r.inside .insert then .error (.nestedInsert t.start) else .ok (r.enter .insert t.start)
  | .hiddenOpen =>
    if r.inside .insert then .error (.nestedHidden t.start .insert)
    else if r.inside .hidden then .error (.nestedHidden t.start .hidden)
    else .ok (r.enter .hidden t.start)
  | .conditionalOpen => .ok (r.enter .conditional t.start)
  | .rawOpen => .ok (r.enter .rawScript t.start)
  | .insertClose => .ok (r.leaveOrHidden .insert "+" t)
  | .conditionalClose => .ok (r.leaveOrHidden .conditional "?" t)
  | .hiddenClose => .ok (if r.inside .hidden then r.leave .hidden else r.text t.text)
  | .rawClose => .ok (r.text t.text)
  | .lineBreak => .ok (r, [.single .lineBreak])
  | .paragraphBreak => r.newParagraph .paragraph none t.start
  | .horizontalRule => r.newParagraph .paragraph (some .horizontalRule) t.start
  | .quotation => r.continueParagraph .quotation t.start
  | .attribution => r.continueParagraph .attribution t.start
  | .heading => r.continueParagraph .heading t.start

/-- What a token does. Inside raw script all but its closer is text. -/
def step (r : Resolver) (t : Token Feature) : Step :=
  match t.tag with
  | none => .ok (r.text t.text)
  | some feature =>
    if r.inside .rawScript then
      .ok (if feature = .rawClose then r.leave .rawScript else r.text t.text)
    else r.mark feature t

/-- The events of tokens one after the other, added to those there are. -/
def steps : Resolver → Array Event → List (Token Feature) →
    Except MarkupError (Resolver × Array Event)
  | r, out, [] => .ok (r, out)
  | r, out, t :: ts =>
    match r.step t with
    | .ok (r, events) => steps r (out ++ events) ts
    | .error e => .error e

/-- The end of the text ends emphasis and the paragraph; an open bracket span is an error. -/
def finish (r : Resolver) : Except MarkupError (List Event) :=
  match r.opened.getLast? with
  | some span => .error (.unclosed span.kind span.offset)
  | none => .ok (r.styles.map .stop ++ [.stop r.paragraph])

end Resolver

/-- The events of a list of markers and texts. -/
def Event.ofTokens (tokens : List (Token Feature)) : Except MarkupError (List Event) := do
  let (r, out) ← Resolver.initial.steps #[.start Resolver.initial.paragraph] tokens
  let last ← r.finish
  return coalesce (out.toList ++ last)

end Fabula
