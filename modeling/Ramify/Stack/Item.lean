import Ramify.Stack.Word

/-!
# From characters to words

Words are read from left to right, each as long as it can be.  Blanks, and
comments from a number sign to the end of the line, separate words and are
skipped.  The first character decides what a word is: a letter or underscore
begins a name, which is an operation if it is spelled like one; a digit, or a
minus with a digit after it, begins an integer; any other word is a single
character.  Characters that begin no word, and integers that do not fit into 64
bits, are kept as items without a word.
-/

namespace Ramify.Stack

/-- A stretch of a program that is read as one, with its place in bytes. -/
structure Item where
  /-- The bytes before it. -/
  start : Nat
  /-- The bytes up to its end. -/
  stop : Nat
  /-- Its characters. -/
  text : String
  /-- The word, or none if it is not one. -/
  word : Option Word
  deriving DecidableEq

namespace Scan

/-! ## Classes of characters -/

/-- Characters between words. -/
def isBlank (c : Char) : Bool :=
  c = ' ' || c = '\t' || c = '\r' || c = '\n'

/-- Characters that begin a name. -/
def isNameStart (c : Char) : Bool :=
  c.isAlpha || c = '_'

/-- Characters that go on with a name. -/
def isNamePart (c : Char) : Bool :=
  c.isAlphanum || c = '_' || c = '-' || c = '?' || c = '!'

/-! ## Values of words -/

/-- The value of decimal digits. -/
def digitsValue (digits : List Char) : Nat :=
  digits.foldl (fun n c => 10 * n + (c.toNat - '0'.toNat)) 0

/-- An integer that fits into 64 bits. -/
def fitting (n : Int) : Option Word :=
  if Int64.minValue.toInt ≤ n ∧ n ≤ Int64.maxValue.toInt then some (.int (.ofInt n)) else none

/-- The operation of a spelling. -/
def op? (text : String) : Option Op :=
  Op.all.find? fun o => o.spelling = text

/-- The word of a name: an operation, if there is one of that spelling. -/
def nameWord (text : String) : Word :=
  match op? text with
  | some o => .op o
  | none => .name text

/-- The word of a character that stands alone. -/
def symbolWord? (c : Char) : Option Word :=
  if c = '[' then some .opening
  else if c = ']' then some .closing
  else (op? (String.ofList [c])).map .op

/-! ## Reading -/

/-- What begins at a place of a program. -/
structure Munch where
  /-- The number of characters after the first. -/
  more : Nat
  /-- Whether it is skipped. -/
  skipped : Bool := false
  /-- The word that it is. -/
  word : Option Word := none

/-- Reads what begins with `c` and may go on into `cs`. -/
def munch (c : Char) (cs : List Char) : Munch :=
  if isBlank c then { more := 0, skipped := true }
  else if c = '#' then { more := (cs.takeWhile (· ≠ '\n')).length, skipped := true }
  else if isNameStart c then
    let tail := cs.takeWhile isNamePart
    { more := tail.length, word := some (nameWord (String.ofList (c :: tail))) }
  else if c.isDigit then
    let tail := cs.takeWhile Char.isDigit
    { more := tail.length, word := fitting (digitsValue (c :: tail)) }
  else if c = '-' then
    let digits := cs.takeWhile Char.isDigit
    if digits.isEmpty then { more := 0, word := some (.op .sub) }
    else { more := digits.length, word := fitting (-digitsValue digits) }
  else { more := 0, word := symbolWord? c }

/-- The number of bytes of some characters. -/
def byteLength (cs : List Char) : Nat :=
  cs.foldr (fun c bytes => c.utf8Size + bytes) 0

/-- Reads all items, `offset` bytes having been read before. -/
def itemsFrom (offset : Nat) : List Char → List Item
  | [] => []
  | c :: cs =>
    let m := munch c cs
    let text := c :: cs.take m.more
    let stop := offset + byteLength text
    let rest := itemsFrom stop (cs.drop m.more)
    if m.skipped then rest else ⟨offset, stop, String.ofList text, m.word⟩ :: rest
termination_by cs => cs.length
decreasing_by simp only [List.length_cons, List.length_drop]; omega

end Scan

/-- The items of a program. -/
def items (source : String) : List Item :=
  Scan.itemsFrom 0 source.toList

/-- The words of a program, without what is not a word. -/
def words (source : String) : List Word :=
  (items source).filterMap Item.word

end Ramify.Stack
