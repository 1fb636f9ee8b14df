import Fabula.Datum.Basic

/-!
Reading data from text. Blanks and comments may stand between the parts: a comment reaches from
two slashes to the end of the line, or stands between `/*` and `*/` and may hold other such
comments.
-/
namespace Fabula.Datum

/-- Where the reader stands while it skips what separates parts. -/
inductive Gap where
  | between
  | line
  /-- In a comment, with the number of comments inside each other. -/
  | block (depth : Nat)

/-- Skip blanks and comments; `none` when a comment is not closed. -/
def skipFrom : Gap → List Char → Option (List Char)
  | .between, '/' :: '/' :: rest => skipFrom .line rest
  | .between, '/' :: '*' :: rest => skipFrom (.block 0) rest
  | .between, c :: rest =>
    if c = ' ' ∨ c = '\t' ∨ c = '\n' ∨ c = '\r' then skipFrom .between rest
    else some (c :: rest)
  | .line, '\n' :: rest => skipFrom .between rest
  | .line, _ :: rest => skipFrom .line rest
  | .block 0, '*' :: '/' :: rest => skipFrom .between rest
  | .block (n + 1), '*' :: '/' :: rest => skipFrom (.block n) rest
  | .block n, '/' :: '*' :: rest => skipFrom (.block (n + 1)) rest
  | .block n, _ :: rest => skipFrom (.block n) rest
  | .block _, [] => none
  | _, [] => some []

def skip (cs : List Char) : Option (List Char) := skipFrom .between cs

def isWordStart (c : Char) : Bool := c.isAlpha || c == '_'

def isWordRest (c : Char) : Bool := c.isAlphanum || c == '_'

def isRawRest (c : Char) : Bool := isWordRest c || c == '.' || c == '+' || c == '-'

/-- Read a word. What would be a word only as a raw one needs its mark. -/
def readWord : List Char → Option (String × List Char)
  | 'r' :: '#' :: rest =>
    if rest.head?.any isRawRest then
      some (String.ofList (rest.takeWhile isRawRest), rest.dropWhile isRawRest)
    else none
  | cs =>
    let rest := cs.dropWhile isWordRest
    if cs.head?.any isWordStart && !rest.head?.any isRawRest then
      some (String.ofList (cs.takeWhile isWordRest), rest)
    else none

def largestNatural : Nat := 0xFFFFFFFFFFFFFFFF

/-- The largest whole number that is read with a sign before it. -/
def largestSigned (negative : Bool) : Nat :=
  if negative then 0x8000000000000000 else 0x7FFFFFFFFFFFFFFF

/-- The characters of whole numbers, of which underscores do not count. -/
def isWholePart (c : Char) : Bool := (Text.hexDigit? c).isSome || c == '_'

def isDecimalPart (c : Char) : Bool :=
  c.isDigit || c == '.' || c == 'e' || c == 'E' || c == '+' || c == '-'

/-- The value of digits in a base, underscores apart; the first must be a digit. -/
def digitsIn? (base : Nat) (digits : List Char) : Option Nat :=
  if digits.head?.any (· != '_') then
    (digits.filter (· != '_')).foldlM
      (fun n d => (Text.hexDigit? d).bind fun v =>
        if v < base then some (base * n + v) else none) 0
  else none

/-- Read a whole number of at most the given size, possibly in base 2, 8 or 16. -/
def readWhole (largest : Nat) (cs : List Char) : Option (Nat × List Char) :=
  let (base, digits) :=
    match cs with
    | '0' :: 'x' :: digits => (16, digits)
    | '0' :: 'b' :: digits => (2, digits)
    | '0' :: 'o' :: digits => (8, digits)
    | _ => (10, cs)
  match digitsIn? base (digits.takeWhile isWholePart) with
  | some n => if n ≤ largest then some (n, digits.dropWhile isWholePart) else none
  | none => none

/-- Read a number with an optional sign in decimal notation. -/
def readDecimal (cs : List Char) : Option (Datum × List Char) :=
  (Number.read? (String.ofList (cs.takeWhile isDecimalPart))).map fun x =>
    (.number x, cs.dropWhile isDecimalPart)

/-- Read a number: a whole number unless it goes on as a decimal one or is too large. Only a
whole number without sign is a natural number. -/
def readNumber (cs : List Char) : Option (Datum × List Char) :=
  let (sign, size) :=
    match cs with
    | '-' :: size => (some true, size)
    | '+' :: size => (some false, size)
    | _ => (none, cs)
  if (size.takeWhile isWholePart).length < (size.takeWhile isDecimalPart).length then
    readDecimal cs
  else
    match sign with
    | none =>
      match readWhole largestNatural size with
      | some (n, rest) => some (.natural n, rest)
      | none => readDecimal cs
    | some negative =>
      match readWhole (largestSigned negative) size with
      | some (n, rest) => some (.number (if negative then -n.toFloat else n.toFloat), rest)
      | none => readDecimal cs

def readText : List Char → Option (String × List Char)
  | '"' :: rest =>
    (Text.unquote (rest.length + 1) rest).map fun (s, rest) => (String.ofList s, rest)
  | 'r' :: rest =>
    let hashes := (rest.takeWhile (· == '#')).length
    match rest.drop hashes with
    | '"' :: rest => (Text.unquoteRaw hashes rest).map fun (s, rest) => (String.ofList s, rest)
    | _ => none
  | _ => none

def readKey? (cs : List Char) : Option (String × List Char) :=
  match readWord cs with
  | some (key, rest) =>
    match skip rest with
    | some (':' :: rest) => some (key, rest)
    | _ => none
  | none => none

def numberOfWord? (name : String) : Option Float :=
  if name = "inf" ∨ name = "NaN" then Number.read? name else none

mutual

def readDatum : Nat → List Char → Option (Datum × List Char)
  | 0, _ => none
  | n + 1, cs =>
    match skip cs with
    | none => none
    | some ('[' :: rest) =>
      (readItems ']' n rest).map fun (items, rest) => (.list items, rest)
    | some ('(' :: rest) => readBody "" n rest
    | some ('-' :: 'i' :: 'n' :: 'f' :: rest) =>
      if rest.head?.any isWordRest then none else some (.number (-Number.infinity), rest)
    | some cs =>
      match readText cs with
      | some (s, rest) => some (.text s, rest)
      | none =>
        match readWord cs with
        | none => readNumber cs
        | some (name, rest) =>
          match skip rest with
          | some ('(' :: rest) => readBody name n rest
          | _ =>
            match numberOfWord? name with
            | some x => some (.number x, rest)
            | none => some (.word name, rest)

/-- Read the fields of a record or the items of a tuple after its opening parenthesis. -/
def readBody (name : String) : Nat → List Char → Option (Datum × List Char)
  | 0, _ => none
  | n + 1, cs =>
    match skip cs with
    | none => none
    | some (')' :: rest) => some (.record name [], rest)
    | some cs =>
      match readKey? cs with
      | some _ => (readFields n cs).map fun (fields, rest) => (.record name fields, rest)
      | none => (readItems ')' n cs).map fun (items, rest) => (.tuple name items, rest)

/-- Read fields up to the closing parenthesis; a comma may follow the last. -/
def readFields : Nat → List Char → Option (List (String × Datum) × List Char)
  | 0, _ => none
  | n + 1, cs =>
    match skip cs with
    | some (')' :: rest) => some ([], rest)
    | some cs =>
      match readKey? cs with
      | none => none
      | some (key, rest) =>
        match readDatum n rest with
        | none => none
        | some (d, rest) =>
          match skip rest with
          | some (',' :: rest) =>
            (readFields n rest).map fun (fields, rest) => ((key, d) :: fields, rest)
          | some (')' :: rest) => some ([(key, d)], rest)
          | _ => none
    | none => none

/-- Read items up to the closing character; a comma may follow the last. -/
def readItems (close : Char) : Nat → List Char → Option (List Datum × List Char)
  | 0, _ => none
  | n + 1, cs =>
    match skip cs with
    | none => none
    | some [] => none
    | some (c :: cs) =>
      if c = close then some ([], cs)
      else
        match readDatum n (c :: cs) with
        | none => none
        | some (d, rest) =>
          match skip rest with
          | some (e :: rest) =>
            if e = ',' then (readItems close n rest).map fun (ds, rest) => (d :: ds, rest)
            else if e = close then some ([d], rest)
            else none
          | _ => none

end

def maxLevels : Nat := 128

/-- Read a datum from a whole text; one that goes down too many levels is refused. -/
def read? (s : String) : Option Datum :=
  let cs := s.toList
  match readDatum (2 * cs.length + 2) cs with
  | some (d, rest) =>
    if (skip rest matches some []) && d.levels ≤ maxLevels then some d else none
  | none => none

/-- Whether the written form of a datum reads back as the same datum. -/
def readsBack (d : Datum) : Bool := (read? d.write).any (·.same d)

end Fabula.Datum
