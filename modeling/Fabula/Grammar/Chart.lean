import Fabula.Grammar.Basic

/-!
The chart of a token list: one column for each border between tokens, each a list of items
without repetition in order of arrival. An item is a production with a dot in its right-hand
side and the column where it began; its links say which item it advances and over which token or
completed item. A column is closed by treating its items in order, while treating them may add
further ones.
-/
namespace Fabula

/-- A production with a dot, begun at the column `origin`. -/
structure Item where
  production : Nat
  dot : Nat
  origin : Nat
  deriving DecidableEq, Repr

structure Address where
  column : Nat
  index : Nat
  deriving DecidableEq, Repr

/-- What a dot moves over: the token at a column, or a completed item. -/
inductive Piece where
  | token (column : Nat)
  | item (address : Address)
  deriving DecidableEq, Repr

/-- One way to reach an item: the item before the dot moved, and what the dot moved over. -/
structure Link where
  previous : Address
  piece : Piece
  deriving DecidableEq, Repr

/-- An item with the ways to reach it, in order of arrival. -/
structure Entry where
  item : Item
  links : List Link
  deriving DecidableEq, Repr

abbrev Column := Array Entry

namespace Item

def begin (production origin : Nat) : Item := ⟨production, 0, origin⟩

def advance (i : Item) : Item := { i with dot := i.dot + 1 }

variable {ν τ ρ : Type} [DecidableEq ν]

/-- The symbol after the dot; `none` for a completed item. -/
def symbol? (g : Grammar ν τ ρ) (i : Item) : Option (Symbol ν τ) :=
  (g.rhs i.production)[i.dot]?

def awaits (g : Grammar ν τ ρ) (name : ν) (i : Item) : Bool :=
  match i.symbol? g with
  | some (.nonterminal n) => n == name
  | _ => false

/-- Whether the item is a completed production of the given non-terminal. -/
def completes (g : Grammar ν τ ρ) (name : ν) (i : Item) : Bool :=
  (i.symbol? g).isNone && g.lhs? i.production == some name

end Item

def Entry.addLink (e : Entry) (link : Link) : Entry :=
  if e.links.contains link then e else { e with links := e.links ++ [link] }

namespace Column

def add (column : Column) (item : Item) (link : Option Link) : Column :=
  match column.findIdx? (·.item == item) with
  | none => column.push ⟨item, link.toList⟩
  | some i =>
    match link with
    | none => column
    | some l => column.modify i (·.addLink l)

def extent (column : Column) : Nat :=
  column.toList.foldr (fun e n => 1 + 2 * e.links.length + n) 0

/-- The items among the first `n` that satisfy a test, with their indices, put before
`later`. -/
def select (column : Column) (test : Item → Bool) :
    Nat → List (Nat × Item) → List (Nat × Item)
  | 0, later => later
  | n + 1, later =>
    match column[n]? with
    | none => select column test n later
    | some e =>
      if test e.item then select column test n ((n, e.item) :: later)
      else select column test n later

end Column

structure Chart where
  columns : Array Column
  deriving DecidableEq, Repr

namespace Chart

def column (chart : Chart) (c : Nat) : Column := chart.columns.getD c #[]

def entryAt? (chart : Chart) (a : Address) : Option Entry := (chart.column a.column)[a.index]?

def add (chart : Chart) (c : Nat) (item : Item) (link : Option Link) : Chart :=
  ⟨chart.columns.modify c (·.add item link)⟩

/-- The extent of all columns, which bounds the work of a walk along the links that enters each
entry once. -/
def extent (chart : Chart) : Nat :=
  chart.columns.toList.foldr (fun column n => column.extent + n) 0

variable {ν τ ρ : Type} [DecidableEq ν]

/-- The entries of column `o` that satisfy a test and have been treated when entry `i` of column
`c` is: all of an earlier column, and those before `i` in the column itself. -/
def treated (chart : Chart) (c i o : Nat) (test : Item → Bool) : List (Nat × Item) :=
  let column := chart.column o
  column.select test (if o = c then i else column.size) []

/-- The completed item at `here` advances the items that await its non-terminal where it
began. -/
def complete (g : Grammar ν τ ρ) (chart : Chart) (here : Address) (item : Item) : Chart :=
  match g.lhs? item.production with
  | none => chart
  | some name =>
    (chart.treated here.column here.index item.origin (·.awaits g name)).foldl
      (fun chart (index, parent) =>
        chart.add here.column parent.advance (some ⟨⟨item.origin, index⟩, .item here⟩))
      chart

/-- The item at `here` awaits `name`: it advances over what this column has completed empty, and
the productions of `name` begin here. -/
def predict (g : Grammar ν τ ρ) (chart : Chart) (here : Address) (item : Item)
    (name : ν) : Chart :=
  let c := here.column
  let finished := chart.treated c here.index c fun i => i.origin == c && i.completes g name
  let chart := finished.foldl
    (fun chart (index, _) => chart.add c item.advance (some ⟨here, .item ⟨c, index⟩⟩)) chart
  (g.producing name).foldl
    (fun chart production => chart.add c (.begin production c) none) chart

/-- The item at `here` moves into the next column if the token there has the tag. -/
def advanceOver [DecidableEq τ] (tokens : Array (Token τ)) (chart : Chart) (here : Address)
    (item : Item) (tag : τ) : Chart :=
  if tokens[here.column]?.bind (·.tag) = some tag then
    chart.add (here.column + 1) item.advance (some ⟨here, .token here.column⟩)
  else chart

/-- Treat one entry: complete it, predict what it awaits, or move it over a token. -/
def treat [DecidableEq τ] (g : Grammar ν τ ρ) (tokens : Array (Token τ)) (chart : Chart)
    (here : Address) : Chart :=
  match chart.entryAt? here with
  | none => chart
  | some entry =>
    match entry.item.symbol? g with
    | none => chart.complete g here entry.item
    | some (.nonterminal name) => chart.predict g here entry.item name
    | some (.terminal tag) => chart.advanceOver tokens here entry.item tag

/-- Treat the entries of column `c` from index `i` on, at most the given number of them. -/
def closeFrom [DecidableEq τ] (g : Grammar ν τ ρ) (tokens : Array (Token τ)) (c : Nat) :
    Nat → Nat → Chart → Chart
  | 0, _, chart => chart
  | n + 1, i, chart =>
    if i < (chart.column c).size then
      closeFrom g tokens c n (i + 1) (chart.treat g tokens ⟨c, i⟩)
    else chart

/-- Close a column. Its items differ and begin at it or before it, so their number is
bounded. -/
def close [DecidableEq τ] (g : Grammar ν τ ρ) (tokens : Array (Token τ)) (chart : Chart)
    (c : Nat) : Chart :=
  closeFrom g tokens c ((c + 1) * g.dottedCount) 0 chart

def seed (g : Grammar ν τ ρ) (root : ν) (count : Nat) : Chart :=
  (g.producing root).foldl (fun chart production => chart.add 0 (.begin production 0) none)
    ⟨Array.replicate (count + 1) #[]⟩

/-- The chart of a token list for a root: its columns closed from left to right. -/
def ofTokens [DecidableEq τ] (g : Grammar ν τ ρ) (root : ν)
    (tokens : Array (Token τ)) : Chart :=
  (List.range (tokens.size + 1)).foldl (close g tokens) (seed g root tokens.size)

end Chart

end Fabula
