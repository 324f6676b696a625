import Ramify.Stack.Item
import Ramify.Stack.Program

/-!
# Compiling programs

A program is compiled word by word, so that the first item that is not a word,
or that cannot stand in its place, is the one reported.
-/

namespace Ramify.Stack

/-- A place in a program, in bytes. -/
structure Span where
  /-- The bytes before it. -/
  start : Nat
  /-- The bytes up to its end. -/
  stop : Nat
  deriving DecidableEq

/-- The text of a place. -/
def Span.text (span : Span) : String := s!"{span.start}..{span.stop}"

/-- The wording for an item that is not a word. -/
def unrecognised : String := "unrecognised input"

/-- Why a program cannot be compiled. -/
inductive Error where
  /-- An item is not a word. -/
  | notAWord (span : Span)
  /-- A word cannot stand in its place. -/
  | unexpected (text : String) (span : Span)
  /-- The program as a whole is not accepted. -/
  | incomplete (refusal : Refusal)
  /-- The grammar is at fault, or a limit was exceeded. -/
  | engine (fault : Fault)
  deriving DecidableEq

/-- The wording of an error. -/
def Error.message : Error → String
  | .notAWord span => s!"{unrecognised} at {span.text}"
  | .unexpected text span => s!"unexpected `{text}` at {span.text}"
  | .incomplete refusal => s!"incomplete program: {refusal.message}"
  | .engine fault => fault.message

/-- The place of an item. -/
def Item.span (item : Item) : Span := ⟨item.start, item.stop⟩

/-- Feeds items until one cannot be right; gives the forest, or the error, and notes. -/
def takeItems (f : Forest Word Instruction) :
    List Item → Except Error (Forest Word Instruction) × List Note
  | [] => (.ok f, [])
  | item :: items =>
    match item.word with
    | none => (.error (.notAWord item.span), [])
    | some word =>
      let taken := f.take word
      match taken.result with
      | .error fault => (.error (.engine fault), taken.notes)
      | .ok () =>
        if taken.forest.isHopeless then (.error (.unexpected item.text item.span), taken.notes)
        else
          let (result, notes) := takeItems taken.forest items
          (result, taken.notes ++ notes)

/-- Compiles the items of a program with the grammar of programs. -/
def compileItems (grammar : Grammar Word Instruction) (items : List Item) :
    Except Error (List Instruction) × List Note :=
  match takeItems (.new grammar .unlimited) items with
  | (.error error, notes) => (.error error, notes)
  | (.ok f, notes) =>
    let closed := f.close
    match closed.result with
    | .error refusal => (.error (.incomplete refusal), notes ++ closed.notes)
    | .ok program =>
      (.ok program, notes ++ closed.notes ++ [.compiled closed.forest.consumed program.length])

/-- Compiles a program with the grammar of programs. -/
def compileIn (grammar : Grammar Word Instruction) (source : String) :
    Except Error (List Instruction) × List Note :=
  compileItems grammar (items source)

/-- Compiles a program. -/
def compile (source : String) : Except Error (List Instruction) × List Note :=
  match Program.grammar with
  | .error fault => (.error (.engine fault), [])
  | .ok grammar =>
    let (result, notes) := compileIn grammar source
    (result, grammar.builtNote :: notes)

end Ramify.Stack
