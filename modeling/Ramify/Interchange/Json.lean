import Ramify.Interchange

/-!
# Reading trees from JSON

The written form of a tree is JSON.  Each function here reads something at the
beginning of a list of characters and gives it together with the rest, or
nothing if it is not there.

How a number is written matters: with a fraction or an exponent it is a decimal,
whatever its value, and so is a negative zero.  Of two fields with one label the
later counts.
-/

namespace Ramify.Json

/-- Characters that may stand between the parts of a text. -/
def isBlank (c : Char) : Bool :=
  c = ' ' || c = '\t' || c = '\r' || c = '\n'

/-- Leaves out blanks at the beginning. -/
def skip (cs : List Char) : List Char :=
  cs.dropWhile isBlank

/-- Reads a fixed word. -/
def word (expected : String) (cs : List Char) : Option (List Char) :=
  if expected.toList.isPrefixOf cs then some (cs.drop expected.length) else none

/-! ## Numbers -/

/-- The value of decimal digits. -/
def digitsValue (digits : List Char) : Nat :=
  digits.foldl (fun n c => 10 * n + (c.toNat - '0'.toNat)) 0

/-- Reads as many digits as there are. -/
def digits (cs : List Char) : List Char × List Char :=
  cs.span Char.isDigit

/-- Reads the digits after a point, if there is one; at least one digit is due. -/
def fraction (cs : List Char) : Option (List Char × List Char) :=
  match cs with
  | '.' :: rest =>
    let (found, rest) := digits rest
    if found.isEmpty then none else some (found, rest)
  | _ => some ([], cs)

/-- Reads an exponent, if there is one; at least one digit is due. -/
def exponent (cs : List Char) : Option (Option Int × List Char) :=
  let magnitude (sign : Int) (cs : List Char) : Option (Option Int × List Char) :=
    let (found, rest) := digits cs
    if found.isEmpty then none else some (some (sign * digitsValue found), rest)
  match cs with
  | 'e' :: '-' :: rest | 'E' :: '-' :: rest => magnitude (-1) rest
  | 'e' :: '+' :: rest | 'E' :: '+' :: rest => magnitude 1 rest
  | 'e' :: rest | 'E' :: rest => magnitude 1 rest
  | _ => some (none, cs)

/-- The tree of a number with the given parts. -/
def numberTree (negative : Bool) (whole decimals : List Char) (power : Option Int) : Tree :=
  let size : Int := digitsValue (whole ++ decimals)
  let value := if negative then -size else size
  match decimals, power with
  | [], none => if negative && size == 0 then .decimal 0 0 else .whole value
  | _, _ => .decimal value (power.getD 0 - decimals.length)

/-- Reads a number.  A zero at the beginning stands alone before a fraction. -/
def number (cs : List Char) : Option (Tree × List Char) := do
  let (negative, cs) := match cs with
    | '-' :: rest => (true, rest)
    | _ => (false, cs)
  let (whole, cs) := match cs with
    | '0' :: rest => (['0'], rest)
    | _ => digits cs
  if whole.isEmpty then none
  else do
    let (decimals, cs) ← fraction cs
    let (power, cs) ← exponent cs
    return (numberTree negative whole decimals power, cs)

/-! ## Strings -/

/-- The value of a hexadecimal digit. -/
def hexDigit? (c : Char) : Option Nat :=
  if c.isDigit then some (c.toNat - '0'.toNat)
  else if 'a' ≤ c ∧ c ≤ 'f' then some (c.toNat - 'a'.toNat + 10)
  else if 'A' ≤ c ∧ c ≤ 'F' then some (c.toNat - 'A'.toNat + 10)
  else none

/-- Reads four hexadecimal digits. -/
def unit (cs : List Char) : Option (Nat × List Char) :=
  match cs with
  | a :: b :: c :: d :: rest => do
    return (((← hexDigit? a) * 16 + (← hexDigit? b)) * 256 +
      ((← hexDigit? c) * 16 + (← hexDigit? d)), rest)
  | _ => none

/-- Reads the code point after a backslash and a `u`: four digits, or two groups
of four for a code point that does not fit into one. -/
def codePoint (cs : List Char) : Option (Char × List Char) := do
  let (high, cs) ← unit cs
  if 0xD800 ≤ high ∧ high < 0xDC00 then
    match cs with
    | '\\' :: 'u' :: rest =>
      let (low, rest) ← unit rest
      if 0xDC00 ≤ low ∧ low < 0xE000 then
        some (Char.ofNat (0x10000 + (high - 0xD800) * 0x400 + (low - 0xDC00)), rest)
      else none
    | _ => none
  else if 0xDC00 ≤ high ∧ high < 0xE000 then none
  else some (Char.ofNat high, cs)

/-- The character that a letter after a backslash stands for. -/
def escaped? (c : Char) : Option Char :=
  if c = '\x22' ∨ c = '\\' ∨ c = '/' then some c
  else if c = 'b' then some '\x08'
  else if c = 'f' then some '\x0c'
  else if c = 'n' then some '\n'
  else if c = 'r' then some '\r'
  else if c = 't' then some '\t'
  else none

/-- Reads a string up to its closing quote, the opening one having been read and
`found` being its characters so far, newest first. -/
def string : (fuel : Nat) → (found : List Char) → List Char → Option (String × List Char)
  | 0, _, _ | _, _, [] => none
  | fuel + 1, found, c :: cs =>
    if c = '\x22' then some (String.ofList found.reverse, cs)
    else if c = '\\' then
      match cs with
      | 'u' :: rest => do
        let (c, rest) ← codePoint rest
        string fuel (c :: found) rest
      | letter :: rest => do
        string fuel ((← escaped? letter) :: found) rest
      | [] => none
    else if c.toNat < 0x20 then none
    else string fuel (c :: found) cs

/-! ## Trees -/

/-- Adds a field; it takes the place of one with the same label. -/
def addField (fields : List (String × Tree)) (label : String) (tree : Tree) :
    List (String × Tree) :=
  fields.filter (fun field => field.1 ≠ label) ++ [(label, tree)]

mutual

/-- Reads a tree. -/
def tree : (fuel : Nat) → List Char → Option (Tree × List Char)
  | 0, _ => none
  | fuel + 1, cs =>
    match skip cs with
    | [] => none
    | c :: rest =>
      if c = '\x7b' then
        match skip rest with
        | '\x7d' :: rest => some (.record [], rest)
        | rest => fields fuel [] rest
      else if c = '[' then
        match skip rest with
        | ']' :: rest => some (.list [], rest)
        | rest => elements fuel [] rest
      else if c = '\x22' then
        (string (rest.length + 1) [] rest).map fun (text, rest) => (.text text, rest)
      else if c = 't' then (word "true" (c :: rest)).map fun rest => (.bool true, rest)
      else if c = 'f' then (word "false" (c :: rest)).map fun rest => (.bool false, rest)
      else if c = 'n' then (word "null" (c :: rest)).map fun rest => (.null, rest)
      else number (c :: rest)

/-- Reads the elements of a list up to its closing bracket; `found` are those so
far, newest first. -/
def elements : (fuel : Nat) → (found : List Tree) → List Char → Option (Tree × List Char)
  | 0, _, _ => none
  | fuel + 1, found, cs => do
    let (element, cs) ← tree fuel cs
    match skip cs with
    | ',' :: rest => elements fuel (element :: found) rest
    | ']' :: rest => some (.list (element :: found).reverse, rest)
    | _ => none

/-- Reads the fields of a record up to its closing brace; `found` are those so far. -/
def fields : (fuel : Nat) → (found : List (String × Tree)) → List Char → Option (Tree × List Char)
  | 0, _, _ => none
  | fuel + 1, found, cs =>
    match skip cs with
    | '\x22' :: rest => do
      let (label, cs) ← string (rest.length + 1) [] rest
      match skip cs with
      | ':' :: rest => do
        let (value, cs) ← tree fuel rest
        let found := addField found label value
        match skip cs with
        | ',' :: rest => fields fuel found rest
        | '\x7d' :: rest => some (.record found, rest)
        | _ => none
      | _ => none
    | _ => none

end

/-- Reads a text that is one tree.  Every level and every part of it takes up a
character, so the length of the text bounds the reading. -/
def read? (text : String) : Option Tree := do
  let cs := text.toList
  let (found, rest) ← tree (2 * cs.length + 1) cs
  if (skip rest).isEmpty then some found else none

end Ramify.Json
