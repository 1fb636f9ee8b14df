import Fabula.Number.Text
import Fabula.Text.Quoted

/-!
Data that is stored as text: natural numbers, doubles, texts, words, lists, and records and
tuples with or without a name. The written form has no blanks: fields are `key:value`, parts
stand between commas, records and tuples in parentheses after their name, lists in brackets.
-/
namespace Fabula

inductive Datum where
  | natural (n : Nat)
  | number (x : Float)
  | text (s : String)
  | word (name : String)
  | list (items : List Datum)
  | tuple (name : String) (items : List Datum)
  | record (name : String) (fields : List (String × Datum))

/-- Whole numbers keep their fraction in stored texts, and zero its sign. -/
def Number.storedLayout : Number.Layout := ⟨true, true⟩

namespace Datum

/-- Parts with commas between them. -/
def joinParts (parts : List String) : String := String.intercalate "," parts

mutual

/-- The written form of a datum. -/
def write : Datum → String
  | natural n => toString n
  | number x => Number.write Number.storedLayout x
  | text s => Text.quote s
  | word name => name
  | list items => "[" ++ joinParts (writeAll items) ++ "]"
  | tuple name items => name ++ "(" ++ joinParts (writeAll items) ++ ")"
  | record name fields => name ++ "(" ++ joinParts (writeFields fields) ++ ")"

def writeAll : List Datum → List String
  | [] => []
  | d :: ds => d.write :: writeAll ds

def writeFields : List (String × Datum) → List String
  | [] => []
  | (key, d) :: fields => (key ++ ":" ++ d.write) :: writeFields fields

end

mutual

/-- Whether two data are equal; numbers are compared as numbers. -/
def same : Datum → Datum → Bool
  | natural a, natural b => a == b
  | number a, number b => a == b
  | text a, text b => a == b
  | word a, word b => a == b
  | list as, list bs => sameAll as bs
  | tuple a as, tuple b bs => a == b && sameAll as bs
  | record a as, record b bs => a == b && sameFields as bs
  | _, _ => false

def sameAll : List Datum → List Datum → Bool
  | [], [] => true
  | a :: as, b :: bs => a.same b && sameAll as bs
  | _, _ => false

def sameFields : List (String × Datum) → List (String × Datum) → Bool
  | [], [] => true
  | (k, a) :: as, (l, b) :: bs => k == l && a.same b && sameFields as bs
  | _, _ => false

end

/-- Words that stand for a value by themselves; any other word is the name of a choice. -/
def plainWords : List String := ["true", "false", "None"]

mutual

/-- How many levels a reader goes down in a datum: one for a list, a tuple or a record, one for
each part inside it, and one more to find out a choice by its name. -/
def levels : Datum → Nat
  | natural _ => 0
  | number _ => 0
  | text _ => 0
  | word name => if plainWords.contains name then 0 else 2
  | list items => 1 + levelsAll items
  | tuple name items => (if name = "Some" then 0 else 1) + levelsAll items
  | record name fields => (if name = "" then 1 else 2) + levelsFields fields

def levelsAll : List Datum → Nat
  | [] => 0
  | d :: ds => max (1 + d.levels) (levelsAll ds)

def levelsFields : List (String × Datum) → Nat
  | [] => 0
  | (_, d) :: fields => max (1 + d.levels) (levelsFields fields)

end

end Datum

end Fabula
