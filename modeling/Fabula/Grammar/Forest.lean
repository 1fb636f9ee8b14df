import Fabula.Grammar.Derivation

/-!
The derivations that a chart holds. A forest records for each entry the sequences of derivations
for the symbols before its dot, two of them at most, since two are enough to show an ambiguity.
Entries are resolved depth first along their links. An entry met again while it is being
resolved contributes nothing there, which cuts derivations of a non-terminal from itself.
-/
namespace Fabula

abbrev Sequence := List Derivation

inductive Status where
  | fresh
  | active
  | resolved (sequences : List Sequence)

/-- The states of all entries of a chart, and the column where the first completed item found
with two derivations began. -/
structure Forest where
  states : Array (Array Status)
  ambiguousAt : Option Nat

/-- What is left to do: enter an entry, or put it together once what it links to has been
entered. -/
inductive Task where
  | visit (address : Address)
  | finish (address : Address)

def derivationLimit : Nat := 2

/-- The entries a link leads to: the previous item first. -/
def Link.visits (l : Link) : List Task :=
  match l.piece with
  | .token _ => [.visit l.previous]
  | .item address => [.visit l.previous, .visit address]

namespace Forest

def ofChart (chart : Chart) : Forest :=
  ⟨chart.columns.map fun column => Array.replicate column.size .fresh, none⟩

def status (f : Forest) (a : Address) : Status :=
  (f.states.getD a.column #[]).getD a.index .fresh

def setStatus (f : Forest) (a : Address) (s : Status) : Forest :=
  { f with states := f.states.modify a.column (·.setIfInBounds a.index s) }

def sequences (f : Forest) (a : Address) : List Sequence :=
  match f.status a with
  | .resolved sequences => sequences
  | _ => []

/-- The derivations of a completed entry. If there are two and no ambiguity is known yet, this
is where the ambiguity lies. -/
def trees (f : Forest) (chart : Chart) (a : Address) : List Derivation × Forest :=
  match chart.entryAt? a with
  | none => ([], f)
  | some entry =>
    let trees := (f.sequences a).map (.node entry.item.production)
    if trees.length ≥ derivationLimit && f.ambiguousAt.isNone then
      (trees, { f with ambiguousAt := some entry.item.origin })
    else (trees, f)

/-- The derivations of what a link moves the dot over. -/
def pieces (f : Forest) (chart : Chart) : Piece → List Derivation × Forest
  | .token column => ([.leaf column], f)
  | .item address => f.trees chart address

/-- The sequences that the links of an entry give, after `found`: each sequence of the previous
item with each derivation of the piece. Links are tried in order until there are enough. -/
def combine (chart : Chart) : List Link → List Sequence → Forest → List Sequence × Forest
  | [], found, f => (found, f)
  | l :: ls, found, f =>
    if found.length ≥ derivationLimit then (found, f)
    else
      let (lasts, f) := f.pieces chart l.piece
      let more := (f.sequences l.previous).flatMap fun front => lasts.map fun last =>
        front ++ [last]
      combine chart ls ((found ++ more).take derivationLimit) f

/-- Carry out tasks in order, at most the given number of them. -/
def run (chart : Chart) : Nat → List Task → Forest → Forest
  | 0, _, f => f
  | _, [], f => f
  | n + 1, .visit a :: tasks, f =>
    match f.status a, chart.entryAt? a with
    | .fresh, some entry =>
      if entry.item.dot = 0 then run chart n tasks (f.setStatus a (.resolved [[]]))
      else
        run chart n (entry.links.flatMap Link.visits ++ .finish a :: tasks)
          (f.setStatus a .active)
    | _, _ => run chart n tasks f
  | n + 1, .finish a :: tasks, f =>
    match chart.entryAt? a with
    | none => run chart n tasks f
    | some entry =>
      let (found, f) := combine chart entry.links [] f
      run chart n tasks (f.setStatus a (.resolved found))

/-- Resolve an entry and all that it depends on. Each entry is entered at most once, so the
extent of the chart bounds the number of tasks. -/
def resolve (f : Forest) (chart : Chart) (a : Address) : Forest :=
  run chart (chart.extent + 1) [.visit a] f

/-- The derivations of completed entries in order, until there are enough. -/
def derivations (chart : Chart) :
    List Address → List Derivation → Forest → List Derivation × Forest
  | [], found, f => (found, f)
  | a :: rest, found, f =>
    let (trees, f) := (f.resolve chart a).trees chart a
    let found := found ++ trees
    if found.length ≥ derivationLimit then (found, f) else derivations chart rest found f

end Forest

end Fabula
