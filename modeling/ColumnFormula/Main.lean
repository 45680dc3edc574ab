import ColumnFormula.Command.Outcome

/-!
# The program

Reads the input if the request needs it and it does not come from a terminal, logs the diagnostics and
prints the outcome.
-/

namespace ColumnFormula

/-- The input, if it is not typed at a terminal. -/
def readInput : IO (Option ByteArray) := do
  let input ← IO.getStdin
  if ← input.isTty then return none
  let mut bytes := ByteArray.empty
  repeat
    let chunk ← input.read 65536
    if chunk.isEmpty then break
    bytes := bytes ++ chunk
  return some bytes

end ColumnFormula

open ColumnFormula in
def main (words : List String) : IO UInt32 := do
  let request := Command.Request.ofWords? words
  let input ← if request.any (·.needsInput) then readInput else pure none
  match request with
  | some request =>
    for diagnostic in request.diagnostics input do
      IO.eprint diagnostic.line
  | none => IO.eprint Command.usage
  let outcome := Command.run words input
  IO.print outcome.stdout
  if let some text := outcome.stderr then IO.eprint text
  return outcome.code.toUInt32
