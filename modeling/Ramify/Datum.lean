import Ramify.Text.Inspect

/-!
# Data as tokens

A `Datum` is the token type of grammars that are described as data rather than
written in Lean: a 64-bit integer, a string, or a list of data.  Tokens of
other types are shown and compared by the datum that stands for them.
-/

namespace Ramify

/-- A token that is plain data. -/
inductive Datum where
  /-- A signed 64-bit integer. -/
  | int (value : Int64)
  /-- A string. -/
  | str (text : String)
  /-- A list of data. -/
  | list (items : List Datum)
  deriving Inhabited

namespace Datum

/-! ## Order -/

mutual

/-- Integers come before strings and strings before lists; integers go by
value, strings by code point and lists lexicographically. -/
def order : Datum → Datum → Ordering
  | .int a, .int b => compare a b
  | .int _, _ => .lt
  | .str _, .int _ => .gt
  | .str a, .str b => compare a b
  | .str _, .list _ => .lt
  | .list a, .list b => orderAll a b
  | .list _, _ => .gt

/-- The lexicographic order of lists: a proper beginning is smaller. -/
def orderAll : List Datum → List Datum → Ordering
  | [], [] => .eq
  | [], _ :: _ => .lt
  | _ :: _, [] => .gt
  | a :: as, b :: bs => (order a b).then (orderAll as bs)

end

instance : Ord Datum := ⟨order⟩

/-! ## Summaries of tokens -/

mutual

/-- The sum of all integers in a datum; strings count nothing. -/
def total : Datum → Int64
  | .int n => n
  | .str _ => 0
  | .list items => totalAll items

/-- The sum of all integers in a list of data. -/
def totalAll : List Datum → Int64
  | [] => 0
  | d :: ds => total d + totalAll ds

end

mutual

/-- The text of a datum: integers in decimal, lists by joining their items. -/
def text : Datum → String
  | .int n => n.toInt.repr
  | .str s => s
  | .list items => textAll items

/-- The texts of a list of data, joined. -/
def textAll : List Datum → String
  | [] => ""
  | d :: ds => text d ++ textAll ds

end

/-! ## Tokens of a match -/

/-- The matched symbols as a string. -/
def ofSymbols (symbols : List Char) : Datum := .str (String.ofList symbols)

/-- The number of matched symbols or of gathered tokens. -/
def ofLength {α : Type} (items : List α) : Datum := .int (.ofNat items.length)

/-- The sum of all integers in the gathered tokens. -/
def ofTotal (tokens : List Datum) : Datum := .int (totalAll tokens)

/-- The joined texts of the gathered tokens. -/
def ofTexts (tokens : List Datum) : Datum := .str (textAll tokens)

/-! ## Diagnostic text -/

mutual

/-- The diagnostic text of a datum. -/
def describe : Datum → String
  | .int n => Text.call "Int" [inspect n]
  | .str s => Text.call "Str" [inspect s]
  | .list items => Text.call "List" [Text.list (describeAll items)]

/-- The diagnostic texts of a list of data. -/
def describeAll : List Datum → List String
  | [] => []
  | d :: ds => describe d :: describeAll ds

end

instance : Inspect Datum := ⟨describe⟩

end Datum

end Ramify
