import Fabula.Text.Extending
import Fabula.Text.Visible

/-!
Quoted texts: a text between double quotes in which quotes, apostrophes and backslashes have a
backslash before them, and characters that are not visible or extend the one before are written
by their codes.
-/
namespace Fabula.Text

/-- Characters that are written by their code in a quoted text. -/
def needsCode (c : Char) : Bool := isExtending c || !isVisible c

def escape (c : Char) : List Char :=
  match c with
  | '"' => ['\\', '"']
  | '\'' => ['\\', '\'']
  | '\\' => ['\\', '\\']
  | '\n' => ['\\', 'n']
  | '\r' => ['\\', 'r']
  | '\t' => ['\\', 't']
  | c =>
    if c.toNat = 0 then ['\\', '0']
    else if needsCode c then '\\' :: 'u' :: '\x7b' :: Nat.toDigits 16 c.toNat ++ ['\x7d']
    else [c]

def quote (s : String) : String :=
  String.ofList ('"' :: s.toList.flatMap escape ++ ['"'])

def hexDigit? (c : Char) : Option Nat :=
  if '0' ≤ c ∧ c ≤ '9' then some (c.toNat - 48)
  else if 'a' ≤ c ∧ c ≤ 'f' then some (c.toNat - 87)
  else if 'A' ≤ c ∧ c ≤ 'F' then some (c.toNat - 55)
  else none

def ofCode? (digits : List Char) : Option Char := do
  let value ← digits.foldlM (fun n d => (hexDigit? d).map (16 * n + ·)) 0
  if value.isValidChar then some (Char.ofNat value) else none

/-- Read what follows the backslash of an escape: a letter or a mark, `x` and two hexadecimal
digits, or `u` and one to six of them in braces. -/
def readEscape : List Char → Option (Char × List Char)
  | 'u' :: '\x7b' :: rest =>
    let digits := rest.takeWhile (· != '\x7d')
    match rest.dropWhile (· != '\x7d') with
    | _ :: rest =>
      if 1 ≤ digits.length ∧ digits.length ≤ 6 then (ofCode? digits).map (·, rest) else none
    | [] => none
  | 'x' :: high :: low :: rest => (ofCode? [high, low]).map (·, rest)
  | 'n' :: rest => some ('\n', rest)
  | 'r' :: rest => some ('\r', rest)
  | 't' :: rest => some ('\t', rest)
  | '0' :: rest => some ('\x00', rest)
  | '"' :: rest => some ('"', rest)
  | '\'' :: rest => some ('\'', rest)
  | '\\' :: rest => some ('\\', rest)
  | _ => none

/-- Read a quoted text after its opening quote: the text, and what follows the closing quote. At
most the given number of characters are read. -/
def unquote : Nat → List Char → Option (List Char × List Char)
  | 0, _ => none
  | n + 1, cs =>
    match cs with
    | [] => none
    | '"' :: rest => some ([], rest)
    | '\\' :: rest =>
      match readEscape rest with
      | some (c, rest) => (unquote n rest).map fun (s, rest) => (c :: s, rest)
      | none => none
    | c :: rest => (unquote n rest).map fun (s, rest) => (c :: s, rest)

/-- Read a raw text after its opening quote, up to a quote with the given number of hash signs
after it. It has no escapes. -/
def unquoteRaw (hashes : Nat) : List Char → Option (List Char × List Char)
  | [] => none
  | c :: rest =>
    if c = '"' ∧ rest.take hashes = List.replicate hashes '#' then some ([], rest.drop hashes)
    else (unquoteRaw hashes rest).map fun (s, rest) => (c :: s, rest)

end Fabula.Text
