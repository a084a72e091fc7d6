import LinePattern.Answer

/-!
# The command line

Reads the standard input to its end, if the answer depends on it, and prints the report.
-/

namespace LinePattern

/-- Reads the stream to its end, or until it fails, where `bytes` were read before. -/
partial def readInput (stream : IO.FS.Stream) (bytes : ByteArray) : IO Input := do
  match ← (stream.read 65536).toBaseIO with
  | .error failure => return { bytes := bytes.toList, failure? := some (toString failure) }
  | .ok more =>
    if more.isEmpty then return { bytes := bytes.toList, failure? := none }
    else readInput stream (bytes ++ more)

end LinePattern

open LinePattern in
/-- Answers the request that the arguments make. They are the arguments behind the name of the
program. A request is made from whatever arguments there are (`Request.ofArgs`), and none of them is
known to be a name: a name in front would be an argument like the others, and would make a difference
only if it were `-E` or set a limit. -/
def main (args : List String) : IO UInt32 := do
  let input ←
    if needsInput args then readInput (← IO.getStdin) .empty
    else pure { bytes := [], failure? := none }
  let report := respond args input
  IO.print report.out
  IO.eprint report.err
  return report.exit
