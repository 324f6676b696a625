import Ramify.Csv.Command

/-!
# The command line

Reads a table from standard input and reports how many records it has.  The
work is done by `Ramify.Csv.Command.run`; here are only the streams.
-/

namespace Ramify

/-- Reads a stream to its end. -/
partial def readAll (stream : IO.FS.Stream) (bytes : ByteArray) : IO ByteArray := do
  let chunk ← stream.read 65536
  if chunk.isEmpty then return bytes else readAll stream (bytes ++ chunk)

end Ramify

/-- Checks the table on standard input. -/
def main (args : List String) : IO UInt32 := do
  let input ← Ramify.readAll (← IO.getStdin) .empty
  let exit := Ramify.Csv.Command.run args input.toList
  (← IO.getStdout).putStr exit.output
  (← IO.getStderr).putStr exit.complaint
  return exit.code
