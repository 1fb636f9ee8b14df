import Fabula.Number.Text
import Fabula.Text.Blank

/-!
Values of the logic language and the state that logic reads: named qualities and the visit
counts of scenes.
-/
namespace Fabula

inductive Value where
  | bool (b : Bool)
  | number (n : Float)
  | text (s : String)

namespace Value

/-- What an unset quality reads as. -/
def zero : Value := number 0

/-- The number a value stands for in arithmetic and comparisons: truth is one, and text that is
no number is zero. -/
def toNumber : Value → Float
  | bool b => if b then 1 else 0
  | number n => n
  | text s => (Number.read? (Text.trim s)).getD 0

/-- Whether a value counts as true: numbers when they are neither zero nor undefined, texts when
they are not empty. -/
def isTruthy : Value → Bool
  | bool b => b
  | number n => n != 0 && !n.isNaN
  | text s => !s.isEmpty

/-- Numbers are shown without a needless fraction and zero without a sign. -/
def layout : Number.Layout := ⟨false, false⟩

/-- The text a value is shown as. -/
def display : Value → String
  | bool b => if b then "true" else "false"
  | number n => Number.write layout n
  | text s => s

end Value

/-- Named values, each name at most once. -/
structure Qualities where
  entries : List (String × Value)

namespace Qualities

def empty : Qualities := ⟨[]⟩

def get? (q : Qualities) (name : String) : Option Value := q.entries.lookup name

/-- The value of a quality; an unset one is zero. -/
def get (q : Qualities) (name : String) : Value := (q.get? name).getD .zero

/-- The entries with `name` set to `value`, in its old place or at the end. -/
def setIn (name : String) (value : Value) : List (String × Value) → List (String × Value)
  | [] => [(name, value)]
  | e :: es => if e.1 == name then (name, value) :: es else e :: setIn name value es

def set (q : Qualities) (name : String) (value : Value) : Qualities :=
  ⟨setIn name value q.entries⟩

def erase (q : Qualities) (name : String) : Qualities :=
  ⟨q.entries.filter (·.1 != name)⟩

end Qualities

/-- How often each scene has been visited. -/
structure Visits where
  entries : List (String × UInt32)

namespace Visits

def empty : Visits := ⟨[]⟩

/-- The visits of a scene, zero when it was never visited. -/
def count (v : Visits) (scene : String) : UInt32 := (v.entries.lookup scene).getD 0

def set (v : Visits) (scene : String) (count : UInt32) : Visits :=
  ⟨(scene, count) :: v.entries.filter (·.1 != scene)⟩

def record (v : Visits) (scene : String) : Visits := v.set scene (v.count scene + 1)

end Visits

end Fabula
