import Ramify.Csv.Dialect
import Ramify.Parse.Source

/-!
# Reading tables

A reader takes a table in chunks of any size and reports the first character
that no table can have in its place.  A final line feed may be left out: closing
the reader supplies it.
-/

namespace Ramify.Csv

/-- Why a table cannot be read. -/
inductive Error where
  /-- A character that cannot stand in its place, counted from zero. -/
  | unexpected (found : Char) (offset : Nat)
  /-- The table as a whole is not accepted. -/
  | refused (refusal : Refusal)
  /-- The grammar is at fault, or a limit was exceeded. -/
  | engine (fault : Fault)
  deriving DecidableEq

/-- The wording of an error. -/
def Error.message : Error → String
  | .unexpected found offset => s!"unexpected {inspect found} at character {offset}"
  | .refused refusal => refusal.message
  | .engine fault => fault.message

/-- A table that is being read. -/
structure Reader where
  /-- The parse of the characters so far. -/
  forest : Forest Char Token
  /-- The last character that was accepted. -/
  last : Option Char := none

namespace Reader

/-- A reader that has read nothing. -/
def ofGrammar (grammar : Grammar Char Token) : Reader :=
  { forest := .new grammar .unlimited }

/-- The number of characters taken. -/
def consumed (reader : Reader) : Nat := reader.forest.consumed

/-- The reader after a chunk, or after the first character of it that was
refused, the error in that case, and notes. -/
structure Step where
  /-- The reader afterwards. -/
  reader : Reader
  /-- Whether the chunk was accepted. -/
  result : Except Error Unit
  /-- Notes on what happened. -/
  notes : List Note

/-- Takes characters up to and including the first that cannot be right. -/
def takeChars (reader : Reader) : List Char → Step
  | [] => ⟨reader, .ok (), []⟩
  | c :: cs =>
    let taken := reader.forest.take c
    match taken.result with
    | .error fault => ⟨⟨taken.forest, reader.last⟩, .error (.engine fault), taken.notes⟩
    | .ok () =>
      if taken.forest.isHopeless then
        ⟨⟨taken.forest, reader.last⟩, .error (.unexpected c (taken.forest.consumed - 1)),
          taken.notes⟩
      else
        let rest := takeChars ⟨taken.forest, some c⟩ cs
        { rest with notes := taken.notes ++ rest.notes }

/-- Takes a chunk of a table. -/
def take (reader : Reader) (chunk : String) : Step :=
  reader.takeChars chunk.toList

/-- Supplies the line feed that a table which does not end in one lacks. -/
def endLine (reader : Reader) : Step :=
  match reader.last with
  | none | some '\n' => ⟨reader, .ok (), []⟩
  | some _ => reader.takeChars ['\n']

/-- Closes the reader and gives the records. -/
def close (reader : Reader) : Except Error (List Record) × List Note :=
  let ended := reader.endLine
  match ended.result with
  | .error error => (.error error, ended.notes)
  | .ok () =>
    let closed := ended.reader.forest.close
    let notes := ended.notes ++ closed.notes
    match closed.result with
    | .error refusal => (.error (.refused refusal), notes)
    | .ok tokens =>
      let records := records tokens
      (.ok records, notes ++ [.readTable records.length closed.forest.consumed])

end Reader

/-- The reader of a dialect, and the note that making its grammar leaves. -/
def Dialect.reader (dialect : Dialect) : Except Error (Reader × List Note) :=
  match dialect.grammar with
  | .ok grammar => .ok (.ofGrammar grammar, [grammar.builtNote])
  | .error fault => .error (.engine fault)

/-- Reads a whole table of the default dialect. -/
def read (text : String) : Except Error (List Record) × List Note :=
  match Dialect.reader {} with
  | .error error => (.error error, [])
  | .ok (reader, built) =>
    let taken := reader.take text
    match taken.result with
    | .error error => (.error error, built ++ taken.notes)
    | .ok () =>
      let (result, notes) := taken.reader.close
      (result, built ++ taken.notes ++ notes)

/-- Reads a table from the characters of a closed channel, without supplying a
final line feed. -/
def receive (grammar : Grammar Char Token) (channel : List Char) :
    Except Error (List Record) × List Note :=
  let received := (Forest.new grammar .unlimited).receive channel
  match received.outcome.result with
  | .error fault => (.error (.engine fault), received.outcome.notes)
  | .ok _ =>
    let closed := received.outcome.forest.close
    let notes := received.outcome.notes ++ closed.notes
    match closed.result with
    | .error refusal => (.error (.refused refusal), notes)
    | .ok tokens => (.ok (records tokens), notes)

end Ramify.Csv
