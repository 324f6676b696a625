import Ramify.Text.Combining

/-!
# Quoted characters and strings

The printed form of a character or a string that keeps it on one line and
makes every character visible.  It stands between quotes; the enclosing quote
and the backslash are preceded by a backslash, the four common controls have
letters of their own, and a character that has no visible form or attaches to
its neighbour is written by its code point.
-/

namespace Ramify.Text

/-- The digits of `n` in base sixteen, in lower case and without padding. -/
def hexadecimal (n : Nat) : String :=
  String.ofList (Nat.toDigits 16 n)

/-- The form of `c` inside quotes of the kind `quote`. -/
def escape (quote c : Char) : String :=
  if c = '\x00' then "\\0"
  else if c = '\t' then "\\t"
  else if c = '\r' then "\\r"
  else if c = '\n' then "\\n"
  else if c = '\\' || c = quote then String.ofList ['\\', c]
  else if isCombining c || !isPrintable c then "\\u\x7b" ++ hexadecimal c.toNat ++ "\x7d"
  else String.ofList [c]

/-- A character between single quotes. -/
def quoteChar (c : Char) : String :=
  "\x27" ++ escape '\x27' c ++ "\x27"

/-- A string between double quotes. -/
def quoteString (s : String) : String :=
  "\x22" ++ String.join (s.toList.map (escape '\x22')) ++ "\x22"

end Ramify.Text
