import Fabula.Markup.Event

/-!
Range trees: text and nested spans. A tree is built from events with the open spans in a list;
ending a span that is not the innermost one closes those inside it too and opens them again
after it.
-/
namespace Fabula

inductive Range where
  | text (s : String)
  | node (kind : SpanKind) (children : List Range)

/-- An open span with what it holds so far, the last part first. -/
structure Frame where
  kind : SpanKind
  parts : List Range

namespace Frame

def close (f : Frame) : Range := .node f.kind f.parts.reverse

def fresh (kind : SpanKind) : Frame := ⟨kind, []⟩

end Frame

/-- Add text after some parts, joining it with a text at their end. -/
def Range.addText (s : String) : List Range → List Range
  | .text t :: rest => .text (t ++ s) :: rest
  | parts => .text s :: parts

/-- A tree being built: the open spans, innermost first, and the parts of the document that are
closed, the last first. -/
structure Builder where
  frames : List Frame
  parts : List Range

namespace Builder

def empty : Builder := ⟨[], []⟩

def onParts (f : List Range → List Range) (b : Builder) : Builder :=
  match b.frames with
  | [] => { b with parts := f b.parts }
  | top :: rest => { b with frames := { top with parts := f top.parts } :: rest }

def add (r : Range) (b : Builder) : Builder := b.onParts (r :: ·)

/-- Close the innermost spans up to the first of a kind, each as a part of the next, and open
all but that one again. -/
def unwind (kind : SpanKind) (inner : Option Range) (parts : List Range) : List Frame → Builder
  | [] => ⟨[], inner.toList ++ parts⟩
  | f :: fs =>
    let closed := Frame.close { f with parts := inner.toList ++ f.parts }
    if f.kind = kind then add closed ⟨fs, parts⟩
    else
      let rest := unwind kind (some closed) parts fs
      { rest with frames := Frame.fresh f.kind :: rest.frames }

/-- End the innermost span of a kind; nothing if none is open. -/
def leave (kind : SpanKind) (b : Builder) : Builder :=
  if b.frames.any (·.kind == kind) then unwind kind none b.parts b.frames else b

/-- What an event does. A span must not open when `maxDepth` spans are open. -/
def step (maxDepth : Nat) (b : Builder) : Event → Except MarkupError Builder
  | .text s => .ok (b.onParts (Range.addText s))
  | .start kind =>
    if maxDepth ≤ b.frames.length then .error (.tooDeep maxDepth)
    else .ok { b with frames := Frame.fresh kind :: b.frames }
  | .stop kind => .ok (b.leave kind)
  | .single kind => .ok (b.add (.node kind []))

/-- The parts of the document once all open spans are closed. -/
def finish (inner : Option Range) (parts : List Range) : List Frame → List Range
  | [] => (inner.toList ++ parts).reverse
  | f :: fs => finish (some (Frame.close { f with parts := inner.toList ++ f.parts })) parts fs

end Builder

/-- The range tree of a list of events. -/
def Range.ofEvents (maxDepth : Nat) (events : List Event) : Except MarkupError Range := do
  let b ← events.foldlM (Builder.step maxDepth) .empty
  return .node .document (Builder.finish none b.parts b.frames)

end Fabula
