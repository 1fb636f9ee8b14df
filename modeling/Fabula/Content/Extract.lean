import Fabula.Content.Node
import Fabula.Logic.Dialect
import Fabula.Markup.Tidy

/-!
Extraction of content from a tidied range tree: each conditional and insert becomes a
dependency, numbered in the order in which they begin.
-/
namespace Fabula

inductive ContentError where
  | markup (error : MarkupError)
  /-- The logic of a dependency does not compile. -/
  | logic (source : String) (error : CompileError Category)
  | scan (error : ScanError)
  deriving DecidableEq, Repr

def ContentError.message : ContentError → String
  | markup error =>
    let cause := error.message
    s!"markup error: {cause}"
  | logic source error =>
    let cause := error.message
    s!"failed to compile '{source}': {cause}"
  | scan error =>
    let cause := error.message
    s!"feature scan failed: {cause}"

namespace Extract

/-- Split a text that begins with `if`, a condition and a colon: the condition, trimmed, and
what follows the colon. -/
def condition? (s : String) : Option (String × String) :=
  match Text.dropBlank s.toList with
  | i :: f :: rest =>
    if Pattern.foldCase i = 'i' ∧ Pattern.foldCase f = 'f' ∧ !rest.head?.any Text.isWord then
      match rest.dropWhile (· != ':') with
      | [] => none
      | _ :: after =>
        let condition := Text.dropBlankEnd (Text.dropBlank (rest.takeWhile (· != ':')))
        some (String.ofList condition, String.ofList after)
    else none
  | _ => none

/-- What follows a colon that a text begins with, blanks before it apart. -/
def afterColon? (s : String) : Option String :=
  match Text.dropBlank s.toList with
  | ':' :: rest => some (String.ofList rest)
  | _ => none

def splitColon? (s : String) : Option (String × String) :=
  match s.toList.dropWhile (· != ':') with
  | [] => none
  | _ :: after => some (String.ofList (s.toList.takeWhile (· != ':')), String.ofList after)

def isLetter (c : Char) : Bool := ('A' ≤ c && c ≤ 'Z') || ('a' ≤ c && c ≤ 'z')

/-- A letter, then letters, digits, underscores and dashes. -/
def isDisplayName (s : String) : Bool :=
  match s.toList with
  | [] => false
  | c :: cs => isLetter c && cs.all fun d => Lexicon.isNameRest d || d == '-'

def displayName (s : String) : Except ContentError String :=
  let name := Text.trim s
  if isDisplayName name then .ok name else .error (.markup (.invalidDisplayName name))

def isBlankRange : Range → Bool
  | .text s => Text.isBlankText s
  | .node _ _ => false

/-- Compile the logic of a dependency. -/
def compileLogic (dialect : Dialect Category) (source : String) (root : RootKind) :
    Except ContentError DependencyLogic :=
  match dialect.compile source root with
  | .ok snippet => .ok (.structured snippet)
  | .error e => .error (.logic source e)

/-- The head of a conditional: its logic, the text after it, and how many children it takes
up. -/
structure Head where
  logic : DependencyLogic
  rest : String
  taken : Nat

/-- The head of a conditional whose first child is not a blank text before others. -/
def headAt (dialect : Dialect Category) : List Range → Except ContentError Head
  | .text s :: _ =>
    match condition? s with
    | none => .error (.markup .malformedConditional)
    | some (condition, rest) =>
      if condition.isEmpty then .error (.markup .malformedConditional)
      else (compileLogic dialect condition .predicate).map fun logic => ⟨logic, rest, 1⟩
  | .node .rawScript inner :: .text s :: _ =>
    match afterColon? s with
    | none => .error (.markup .malformedConditional)
    | some rest => .ok ⟨.rawScript (Text.trim (Range.plainText inner)), rest, 2⟩
  | _ => .error (.markup .malformedConditional)

/-- The head of a conditional; a blank text before it is taken up too. -/
def head (dialect : Dialect Category) (children : List Range) : Except ContentError Head :=
  match children with
  | first :: next :: more =>
    if isBlankRange first then
      (headAt dialect (next :: more)).map fun h => { h with taken := h.taken + 1 }
    else headAt dialect children
  | _ => headAt dialect children

/-- The logic and formatter of an insert: an expression or a raw script, possibly followed by a
colon and the name of a formatter. -/
def insertion (dialect : Dialect Category) (children : List Range) :
    Except ContentError Dependency :=
  match children.filter (!isBlankRange ·) with
  | [.node .rawScript inner] =>
    .ok ⟨.insert, .rawScript (Text.trim (Range.plainText inner)), none⟩
  | [.node .rawScript inner, .text s] =>
    match afterColon? s with
    | none => .error (.markup .malformedInsert)
    | some name =>
      (displayName name).map fun name =>
        ⟨.insert, .rawScript (Text.trim (Range.plainText inner)), some name⟩
  | [.text s] => do
    let (expression, formatter) ←
      match splitColon? s with
      | none => .ok (s, none)
      | some (expression, name) => (displayName name).map fun name => (expression, some name)
    let expression := Text.trim expression
    if expression.isEmpty then .error (.markup .malformedInsert)
    else (compileLogic dialect expression .expression).map fun logic =>
      ⟨.insert, logic, formatter⟩
  | _ => .error (.markup .malformedInsert)

def trimFirst : List Node → List Node
  | .text s :: rest => .text (Text.trimStart s) :: rest
  | ns => ns

def trimLast : List Node → List Node
  | [] => []
  | [.text s] => [.text (Text.trimEnd s)]
  | n :: rest => n :: trimLast rest

def isEmptyText : Node → Bool
  | .text s => s.isEmpty
  | _ => false

/-- The children of a conditional after its head: the text that follows the head, then the
children that the head does not take up, trimmed at both ends. -/
def body (h : Head) (children : List Node) : List Node :=
  (trimLast (trimFirst (.text h.rest :: children.drop h.taken))).filter (!isEmptyText ·)

def container (kind : SpanKind) (children : List Node) : Node :=
  match kind with
  | .paragraph => .styled .paragraph children
  | .quotation => .styled .quotation children
  | .attribution => .styled .attribution children
  | .heading => .styled .heading children
  | .emphasis => .styled .emphasis children
  | .strongEmphasis => .styled .strongEmphasis children
  | .hidden => .styled .hidden children
  | _ => .sequence children

mutual

/-- The node of a range and its dependencies, numbered from `next` on. -/
def node (dialect : Dialect Category) (next : Nat) :
    Range → Except ContentError (Node × List Dependency)
  | .text s => .ok (.text s, [])
  | .node kind children =>
    match kind with
    | .conditional => do
      let h ← head dialect children
      let (nodes, dependencies) ← nodesOf dialect (next + 1) children
      return (.conditional next (body h nodes), ⟨.predicate, h.logic, none⟩ :: dependencies)
    | .insert => do
      let dependency ← insertion dialect children
      return (.insert next, [dependency])
    | .rawScript => .ok (.rawScript (Range.plainText children), [])
    | .lineBreak => .ok (.lineBreak, [])
    | .horizontalRule => .ok (.horizontalRule, [])
    | kind => do
      let (nodes, dependencies) ← nodesOf dialect next children
      return (container kind nodes, dependencies)

/-- The nodes of ranges in order and their dependencies. -/
def nodesOf (dialect : Dialect Category) (next : Nat) :
    List Range → Except ContentError (List Node × List Dependency)
  | [] => .ok ([], [])
  | r :: rest => do
    let (n, first) ← node dialect next r
    let (ns, later) ← nodesOf dialect (next + first.length) rest
    return (n :: ns, first ++ later)

end

/-- The root of some nodes: a single one is the root itself. Unless paragraphs are collected, a
single paragraph stands for its children. -/
def rootOf (collect : Bool) (top : List Node) : Node :=
  let top :=
    match collect, top with
    | false, [.styled .paragraph children] => children
    | _, _ => top
  match top with
  | [n] => n
  | _ => .sequence top

end Extract

end Fabula
