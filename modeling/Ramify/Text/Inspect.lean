import Ramify.Text.Quoted

/-!
# Diagnostic text of values

`Inspect` gives a value the one-line text that diagnostics show.  The text is
made of four shapes: a bare name, a name with arguments in parentheses, a name
with labelled fields in braces, and a list in brackets.
-/

namespace Ramify

/-- Values with a diagnostic text. -/
class Inspect (α : Type) where
  /-- The text shown for a value. -/
  inspect : α → String

export Inspect (inspect)

namespace Text

/-- Items separated by commas, between brackets. -/
def list (items : List String) : String :=
  "[" ++ ", ".intercalate items ++ "]"

/-- A name applied to arguments. -/
def call (name : String) (args : List String) : String :=
  name ++ "(" ++ ", ".intercalate args ++ ")"

/-- A name with entries between braces. -/
def braced (name : String) (entries : List String) : String :=
  name ++ " \x7b " ++ ", ".intercalate entries ++ " \x7d"

/-- A name with labelled fields. -/
def record (name : String) (fields : List (String × String)) : String :=
  braced name (fields.map fun (label, value) => label ++ ": " ++ value)

/-- A name with labelled fields, of which some are not shown. -/
def openRecord (name : String) (fields : List (String × String)) : String :=
  braced name (fields.map (fun (label, value) => label ++ ": " ++ value) ++ [".."])

end Text

instance : Inspect Bool := ⟨fun b => if b then "true" else "false"⟩

instance : Inspect Nat := ⟨Nat.repr⟩

instance : Inspect Int64 := ⟨fun n => n.toInt.repr⟩

instance : Inspect Char := ⟨Text.quoteChar⟩

instance : Inspect String := ⟨Text.quoteString⟩

instance {α : Type} [Inspect α] : Inspect (List α) := ⟨fun xs => Text.list (xs.map inspect)⟩

instance {α : Type} [Inspect α] : Inspect (Array α) := ⟨fun xs => inspect xs.toList⟩

instance {α : Type} [Inspect α] : Inspect (Option α) where
  inspect
    | none => "None"
    | some a => Text.call "Some" [inspect a]

end Ramify
