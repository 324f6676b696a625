import Ramify.Text.Inspect

/-!
# Words of the stack language

A program of the stack language is a row of words: brackets around quotations,
the primitive operations, integers and names.
-/

namespace Ramify.Stack

/-- A primitive operation. -/
inductive Op where
  /-- Doubles the top of the stack. -/
  | dup
  /-- Drops the top of the stack. -/
  | drop
  /-- Exchanges the two topmost values. -/
  | swap
  /-- Copies the second value to the top. -/
  | over
  /-- Addition. -/
  | add
  /-- Subtraction. -/
  | sub
  /-- Multiplication. -/
  | mul
  /-- Division. -/
  | div
  /-- Equality. -/
  | eq
  /-- Comparison. -/
  | lt
  /-- Prints the top of the stack. -/
  | print
  /-- Runs a quotation. -/
  | call
  /-- Runs one of two quotations. -/
  | cond
  deriving DecidableEq

namespace Op

/-- All operations, in the order in which the grammar lists them. -/
def all : List Op :=
  [.dup, .drop, .swap, .over, .add, .sub, .mul, .div, .eq, .lt, .print, .call, .cond]

/-- The spelling of an operation in a program. -/
def spelling : Op → String
  | .dup => "dup"
  | .drop => "drop"
  | .swap => "swap"
  | .over => "over"
  | .add => "+"
  | .sub => "-"
  | .mul => "*"
  | .div => "/"
  | .eq => "="
  | .lt => "<"
  | .print => "."
  | .call => "call"
  | .cond => "if"

/-- The name of an operation in data. -/
def name : Op → String
  | .dup => "dup"
  | .drop => "drop"
  | .swap => "swap"
  | .over => "over"
  | .add => "add"
  | .sub => "sub"
  | .mul => "mul"
  | .div => "div"
  | .eq => "eq"
  | .lt => "lt"
  | .print => "print"
  | .call => "call"
  | .cond => "if"

instance : Inspect Op where
  inspect
    | .dup => "Dup"
    | .drop => "Drop"
    | .swap => "Swap"
    | .over => "Over"
    | .add => "Add"
    | .sub => "Sub"
    | .mul => "Mul"
    | .div => "Div"
    | .eq => "Eq"
    | .lt => "Lt"
    | .print => "Print"
    | .call => "Call"
    | .cond => "If"

end Op

/-- A word of a program. -/
inductive Word where
  /-- Begins a quotation. -/
  | opening
  /-- Ends a quotation. -/
  | closing
  /-- A primitive operation. -/
  | op (op : Op)
  /-- A signed 64-bit integer. -/
  | int (value : Int64)
  /-- Any other name. -/
  | name (text : String)
  deriving DecidableEq

namespace Word

/-- The spelling of a word in a program. -/
def spelling : Word → String
  | .opening => "["
  | .closing => "]"
  | .op o => o.spelling
  | .int value => value.toInt.repr
  | .name text => text

/-- The kind of a word. -/
def kind : Word → String
  | .opening => "Open"
  | .closing => "Close"
  | .op o => inspect o
  | .int _ => "Int"
  | .name _ => "Name"

instance : Inspect Word where
  inspect word :=
    match word with
    | .int value => Text.call word.kind [inspect value]
    | .name text => Text.call word.kind [inspect text]
    | _ => word.kind

end Word

end Ramify.Stack
