import Ramify.Csv.Reader

/-!
# Checking a table

The command that reads a table from its standard input, line by line, and says
how many records it has.  Its one argument, if given, is the delimiter.
-/

namespace Ramify.Csv

/-- What a command leaves behind. -/
structure Exit where
  /-- The exit code. -/
  code : UInt32
  /-- The text on standard output. -/
  output : String := ""
  /-- The text on standard error. -/
  complaint : String := ""
  deriving DecidableEq

/-- Why the command fails. -/
inductive Complaint where
  /-- The argument is not one character. -/
  | notADelimiter (arg : String)
  /-- A line of the input does not encode a text. -/
  | undecodable
  /-- The table cannot be read. -/
  | unreadable (error : Error)
  deriving DecidableEq

/-- The wording of a complaint. -/
def Complaint.message : Complaint → String
  | .notADelimiter arg => s!"delimiter must be a single character, got {inspect arg}"
  | .undecodable => "error: stream did not contain valid UTF-8"
  | .unreadable error => s!"error: {error.message}"

/-- The exit code of a complaint. -/
def Complaint.code : Complaint → UInt32
  | .notADelimiter _ => 2
  | .undecodable | .unreadable _ => 1

namespace Command

/-- The dialect that the arguments ask for. -/
def dialect? : List String → Except Complaint Dialect
  | [] => .ok {}
  | arg :: _ =>
    match arg.toList with
    | [delimiter] => .ok { delimiter }
    | _ => .error (.notADelimiter arg)

/-- Cuts bytes after every line feed. -/
def lines : List UInt8 → List (List UInt8)
  | [] => []
  | byte :: bytes =>
    if byte = 0x0A then [byte] :: lines bytes
    else
      match lines bytes with
      | [] => [[byte]]
      | line :: rest => (byte :: line) :: rest

/-- The text that bytes encode. -/
def decode? (bytes : List UInt8) : Option String :=
  String.fromUTF8? (ByteArray.mk bytes.toArray)

/-- Gives lines to a reader until one is refused or cannot be decoded. -/
def takeLines (reader : Reader) : List (List UInt8) → Except Complaint Reader
  | [] => .ok reader
  | line :: rest =>
    match decode? line with
    | none => .error .undecodable
    | some text =>
      let taken := reader.take text
      match taken.result with
      | .error error => .error (.unreadable error)
      | .ok () => takeLines taken.reader rest

/-- The number of records in a table. -/
def count (dialect : Dialect) (input : List UInt8) : Except Complaint Nat := do
  let (reader, _) ← dialect.reader.mapError .unreadable
  let reader ← takeLines reader (lines input)
  let records ← reader.close.1.mapError .unreadable
  return records.length

/-- Runs the command on its arguments and its standard input. -/
def run (args : List String) (input : List UInt8) : Exit :=
  match dialect? args >>= (count · input) with
  | .ok n => { code := 0, output := s!"{n} records\n" }
  | .error complaint => { code := complaint.code, complaint := complaint.message ++ "\n" }

end Command

end Ramify.Csv
